import GatOS.ProcessRing
import GatOS.ParkedProcesses

/-!
# The kernel after `main`

Two mutexes are in use, `adminMutex` and `semaphoreMutex`, no semaphore is, and nobody waits.
-/
namespace GatOS.Sync
open Scheduler Transition

structure Booted (k : Kernel) : Prop where
  mutexes : ∀ i, (k.mutexes i).queue = emptyQueue ∧ (k.mutexes i).cardinalBlocked = 0 ∧
    (k.mutexes i).mutex = 0
  used : ∀ i, (k.mutexes i).used = true ↔ i = 0 ∨ i = 1
  adminMutex : k.adminMutex = 0
  semaphoreMutex : k.semaphoreMutex = 1
  semaphores : ∀ j, (k.semaphores j).used = false ∧ (k.semaphores j).queue = emptyQueue ∧
    (k.semaphores j).cardinalBlocked = 0 ∧ (k.semaphores j).semaphore = 0
  ring : RingInvariant k.sched
  blocked : ∀ p, ¬ Blocked k.sched p

theorem firstIndex_eq_none {n : ℕ} {p : ℤ → Bool} (h : ∀ i, p i = false) :
    firstIndex n p = none := by
  rw [firstIndex, List.find?_eq_none.mpr fun i _ => by simp [h]]
  rfl

/-- The init process and the shell. -/
theorem ring_boot (slot : ℕ → ProcessSlot) {initPage shellPage : ℕ} (hi : IsPage initPage)
    (hs : IsPage shellPage) (hne : initPage ≠ shellPage) :
    let sched := (createProcess shellPage
      (createProcess initPage (Scheduler.boot slot)).2).2
    RingInvariant sched ∧ ∀ p, ¬ Blocked sched p := by
  have hstart : HistoryInvariant ⟨(createProcess initPage (Scheduler.boot slot)).2, [initPid]⟩ :=
    historyInvariant_start ⟨slot, initPage, hi, rfl⟩
  obtain ⟨hcur, hcard, -, hpages, -, hproc⟩ := createProcess_boot slot initPage
  have hfresh : FreshPage (createProcess initPage (Scheduler.boot slot)).2 shellPage := by
    refine ⟨hs, ?_⟩
    rw [hpages, List.mem_singleton]
    exact hne.symm
  refine ⟨(hstart.ring.createProcess hfresh).1, fun p hb => ?_⟩
  rw [blocked_createProcess hstart.ring hfresh, Blocked, processes] at hb
  obtain ⟨l, hl⟩ := hstart.ring.exists_cons
  have hlen : l = [] := by
    have := length_ring (createProcess initPage (Scheduler.boot slot)).2
    rw [hl, hcard] at this
    simpa using this
  rw [hl, hlen, hcur, List.map_singleton, hproc, List.mem_singleton] at hb
  simp at hb

/-- The tables before `getMutex("semaphoreMutex")`. -/
def initialized (slot : ℕ → ProcessSlot) (strings : ℕ → List ℤ) : Kernel :=
  { initializeMutexes (zeroKernel slot strings) with
    semaphores := fun i => cleanSemaphore ((zeroKernel slot strings).semaphores i) }

theorem getIndex_initialized (slot : ℕ → ProcessSlot) {strings : ℕ → List ℤ} {name : ℕ}
    (hname : strcmp (strings null) (strings name) ≠ 0) (m : Mutex) (hm : m.name = null) :
    getIndex name ((initialized slot strings).setMutex 0 m) = none := by
  refine firstIndex_eq_none fun i => ?_
  by_cases hi : i = 0
  · have hstrings : ((initialized slot strings).setMutex 0 m).strings = strings := rfl
    subst hi
    simp [hm, hstrings, hname]
  · have hused : (((initialized slot strings).setMutex 0 m).mutexes i).used = false := by
      rw [Kernel.setMutex_ne _ _ hi]
      show (if i = 0 then _ else _ : Mutex).used = false
      rw [if_neg hi]
      rfl
    simp [hused]

/-- Mutex 0 is the only one in use. -/
theorem mutexes_initialized (slot : ℕ → ProcessSlot) (strings : ℕ → List ℤ) (i : ℤ) :
    (initialized slot strings).mutexes i = ⟨decide (i = 0), null, emptyQueue, 0, 0, 0⟩ := by
  show (if i = 0 then _ else _ : Mutex) = _
  by_cases hi : i = 0
  · rw [if_pos hi, decide_eq_true hi]
    rfl
  · rw [if_neg hi, decide_eq_false hi]
    rfl

theorem getFreeSpot_initialized (slot : ℕ → ProcessSlot) (strings : ℕ → List ℤ) {m : Mutex}
    (hm : m.used = true) : getFreeSpot ((initialized slot strings).setMutex 0 m) = some 1 := by
  have hused : ∀ i, (((initialized slot strings).setMutex 0 m).mutexes i).used = decide (i = 0) := by
    intro i
    by_cases hi : i = 0
    · rw [hi, Kernel.setMutex_self, hm, decide_eq_true rfl]
    · rw [Kernel.setMutex_ne _ _ hi, mutexes_initialized]
  simp only [getFreeSpot, hused]
  decide

theorem freeMutex_idle {k : Kernel} {i : ℤ} (hi : 0 ≤ i) (hvalid : isValidMutex i k = true)
    (hidle : (k.mutexes i).cardinalBlocked = 0) :
    freeMutex i k = some (k.setMutex i { k.mutexes i with mutex := 0 }) := by
  simp [freeMutex, hi, hvalid, hidle]

/-- `adminMutex` is locked and freed again, `semaphoreMutex` gets the slot after it. -/
theorem initializeSemaphores_eq (slot : ℕ → ProcessSlot) {strings : ℕ → List ℤ} {name : ℕ}
    (hname : strcmp (strings null) (strings name) ≠ 0) :
    initializeSemaphores name (initializeMutexes (zeroKernel slot strings)) = some
      { ((initialized slot strings).setMutex 1
          { (initialized slot strings).mutexes 1 with
            used := true, name := name, pidCreator := -1 }) with semaphoreMutex := 1 } := by
  set m : Mutex := { (initialized slot strings).mutexes 0 with mutex := 1 } with hm
  have hlock : lockMutex 0 0 (initialized slot strings) =
      some (true, (initialized slot strings).setMutex 0 m) := rfl
  have hget : getMutexRest name ((initialized slot strings).setMutex 0 m) = some (1,
      (initialized slot strings).setMutex 1
        { (initialized slot strings).mutexes 1 with
          used := true, name := name, pidCreator := -1 }) := by
    have hindex := getIndex_initialized slot hname m rfl
    have hspot := getFreeSpot_initialized slot strings (m := m) rfl
    simp only [getMutexRest, hindex, createMutex, hspot]
    rw [freeMutex_idle (by rfl) (by rfl) (by rfl)]
    simp only [Option.map_some, Option.some.injEq, Prod.mk.injEq, true_and]
    unfold Kernel.setMutex
    congr 1
    funext i
    by_cases h1 : i = 1
    · subst h1
      rfl
    · by_cases h0 : i = 0
      · subst h0
        rfl
      · simp only [h0, h1, if_false, ite_eq_right_iff]
        exact fun he => absurd he h0
  have hinit : initializeSemaphores name (initializeMutexes (zeroKernel slot strings)) =
      (lockMutex 0 0 (initialized slot strings)).bind fun r =>
        (getMutexRest name r.2).map fun r => { r.2 with semaphoreMutex := r.1 } := rfl
  rw [hinit, hlock, Option.bind_some, hget]
  rfl

theorem booted_of_boot {slot : ℕ → ProcessSlot} {strings : ℕ → List ℤ}
    {name initPage shellPage : ℕ} {k : Kernel}
    (hname : strcmp (strings null) (strings name) ≠ 0) (hi : IsPage initPage)
    (hs : IsPage shellPage) (hne : initPage ≠ shellPage)
    (h : boot slot strings name initPage shellPage = some k) : Booted k := by
  rw [boot, initializeSemaphores_eq slot hname, Option.map_some] at h
  obtain rfl := Option.some.inj h
  obtain ⟨hring, hblocked⟩ := ring_boot slot hi hs hne
  refine ⟨fun i => ?_, fun i => ?_, rfl, rfl, fun j => ⟨rfl, rfl, rfl, rfl⟩, hring, hblocked⟩
  · by_cases h1 : i = 1
    · subst h1
      exact ⟨rfl, rfl, rfl⟩
    · dsimp only
      rw [Kernel.setMutex_ne _ _ h1, mutexes_initialized]
      exact ⟨rfl, rfl, rfl⟩
  · by_cases h1 : i = 1
    · subst h1
      exact ⟨fun _ => Or.inr rfl, fun _ => rfl⟩
    · dsimp only
      rw [Kernel.setMutex_ne _ _ h1, mutexes_initialized, decide_eq_true_iff]
      exact ⟨Or.inl, fun h => h.resolve_right h1⟩

theorem IsBoot.booted {s : Machine} (h : IsBoot s) : Booted s.kernel := by
  obtain ⟨slot, strings, name, initPage, shellPage, hname, hi, hs, hne, hboot, -, -⟩ := h
  exact booted_of_boot hname hi hs hne hboot

theorem Booted.waiters {k : Kernel} (h : Booted k) (q : QueueId) : k.waiters q = [] := by
  cases q with
  | mutex i =>
    show waitersOf (k.mutexes i).queue = []
    rw [(h.mutexes i).1]
    exact SlotArray.values_replicate _ _
  | semaphore j =>
    show waitersOf (k.semaphores j).queue = []
    rw [(h.semaphores j).2.1]
    exact SlotArray.values_replicate _ _

theorem Booted.cardinal {k : Kernel} (h : Booted k) (q : QueueId) : k.cardinal q = 0 := by
  cases q with
  | mutex i => exact (h.mutexes i).2.1
  | semaphore j => exact (h.semaphores j).2.2.1

theorem IsBoot.settled {s : Machine} (h : IsBoot s) : Settled s := by
  have hb := h.booted
  obtain ⟨-, -, -, -, -, -, -, -, -, -, hpending, -⟩ := h
  refine ⟨⟨hb.ring, fun p c hc => ?_, fun q p hp => ?_, fun q p hp => ?_, fun q => ?_,
    fun q => ?_⟩, hb.blocked _⟩
  · simp [hpending] at hc
  · simp [hb.waiters] at hp
  · simp [hb.waiters] at hp
  · rw [hb.waiters]
    exact List.nodup_nil
  · rw [hb.waiters, hb.cardinal]
    rfl

/-- What every operation preserves in settled states holds in every reachable state. -/
theorem reachable_of_ops {P : Machine → Prop} (hstart : ∀ s, IsBoot s → P s)
    (hop : ∀ s (op : Op) t, Settled s → P s → op.Enabled s → op.perform s = some t → P t)
    {s : Machine} (h : machineSystem.Reachable s) : Settled s ∧ P s := by
  refine System.Reachable.invariant (I := fun s => Settled s ∧ P s)
    (fun s (hs : IsBoot s) => ⟨hs.settled, hstart s hs⟩) (fun s a t hs hstep => ?_) h
  have hops : Ops (fun _ _ => True) s t :=
    step_ops (fun _ _ _ => trivial) (Action.admitted (fun _ _ => trivial) a) hstep
  exact hops.invariant (P := fun s => Settled s ∧ P s)
    (fun s op t hs he _ hrun => ⟨(op_settled hs.1 he hrun).1, hop s op t hs.1 hs.2 he hrun⟩) hs

/-- In every reachable state the parked processes are parked. -/
theorem reachable_settled {s : Machine} (h : machineSystem.Reachable s) : Settled s :=
  (reachable_of_ops (P := fun _ => True) (fun _ _ => trivial) (fun _ _ _ _ _ _ _ => trivial) h).1

/-! ### A concrete start -/

/-- At every address but 0 there is a text of its own. -/
def texts (address : ℕ) : List ℤ := if address = null then [] else [address]

/-- The name of `semaphoreMutex` is at address 1. -/
def bootedMachine : Machine where
  kernel := (boot emptySlots texts 1 (pageAt 0) (pageAt 1)).getD (zeroKernel emptySlots texts)
  pending := fun _ => none
  ledger := emptyLedger

theorem isBoot_bootedMachine : IsBoot bootedMachine := by
  have hname : strcmp (texts null) (texts 1) ≠ 0 := by decide
  refine ⟨emptySlots, texts, 1, pageAt 0, pageAt 1, hname, by decide, by decide, by decide, ?_,
    fun _ => rfl, rfl⟩
  rw [bootedMachine, boot, initializeSemaphores_eq emptySlots hname]
  rfl

/-- The processes 2 to `n + 1` are created. -/
def createProcesses (n : ℕ) : List Action :=
  (List.range n).map fun i => .createProcess (pageAt (i + 2))

theorem reachable_replay {B : Type*} {f : Machine → B} {as : List Action} {b : B}
    (h : (execute step bootedMachine as).map f = some b) :
    ∃ s, machineSystem.Reachable s ∧ f s = b := by
  obtain ⟨s, hs, hf⟩ := Option.map_eq_some_iff.mp h
  exact ⟨s, reachable_of_execute IsBoot isBoot_bootedMachine hs, hf⟩

end GatOS.Sync
