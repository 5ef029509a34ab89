import GatOS.SemaphoreFrame

/-!
# Calls on the semaphores of a program

A step of the machine keeps the names of the semaphores, unless it creates or closes one, and
the calls on all semaphores but the one that it is a call on.
-/
namespace GatOS.Sync
open Scheduler Transition

/-- The fields of the semaphores that only `createSemaphore` and `semClose` set, and the texts. -/
structure SameNames (k k' : Kernel) : Prop where
  used : ∀ i, (k'.semaphores i).used = (k.semaphores i).used
  name : ∀ i, (k'.semaphores i).name = (k.semaphores i).name
  mutex : ∀ i, (k'.semaphores i).mutex = (k.semaphores i).mutex
  strings : k'.strings = k.strings

section

variable {k k' k'' : Kernel} {j : ℤ}

namespace SameNames

theorem refl (k : Kernel) : SameNames k k := ⟨fun _ => rfl, fun _ => rfl, fun _ => rfl, rfl⟩

theorem trans (h : SameNames k k') (g : SameNames k' k'') : SameNames k k'' :=
  ⟨fun i => (g.used i).trans (h.used i), fun i => (g.name i).trans (h.name i),
    fun i => (g.mutex i).trans (h.mutex i), g.strings.trans h.strings⟩

theorem of_semaphores (hsem : k'.semaphores = k.semaphores) (hstrings : k'.strings = k.strings) :
    SameNames k k' :=
  ⟨fun i => by rw [hsem], fun i => by rw [hsem], fun i => by rw [hsem], hstrings⟩

theorem setSemaphore {sem : Semaphore} (hused : sem.used = (k.semaphores j).used)
    (hname : sem.name = (k.semaphores j).name) (hmutex : sem.mutex = (k.semaphores j).mutex) :
    SameNames k (k.setSemaphore j sem) := by
  refine ⟨fun i => ?_, fun i => ?_, fun i => ?_, rfl⟩
  · by_cases hi : i = j
    · rw [hi, Kernel.setSemaphore_self, hused]
    · rw [Kernel.setSemaphore_ne _ _ hi]
  · by_cases hi : i = j
    · rw [hi, Kernel.setSemaphore_self, hname]
    · rw [Kernel.setSemaphore_ne _ _ hi]
  · by_cases hi : i = j
    · rw [hi, Kernel.setSemaphore_self, hmutex]
    · rw [Kernel.setSemaphore_ne _ _ hi]

theorem setState (k : Kernel) (pid : ℤ) (state : ProcessState) :
    SameNames k (k.setState pid state) := of_semaphores rfl rfl

theorem setMutex (k : Kernel) (i : ℤ) (m : Mutex) : SameNames k (k.setMutex i m) :=
  of_semaphores rfl rfl

theorem getSemIndex (h : SameNames k k') (name : ℕ) :
    getSemIndex name k' = getSemIndex name k := by
  simp only [Sync.getSemIndex, h.used, h.name, h.strings]

theorem isValidSemaphore (h : SameNames k k') (i : ℤ) :
    isValidSemaphore i k' = isValidSemaphore i k := by
  simp only [Sync.isValidSemaphore, h.used]

/-! ### The functions of the kernel -/

theorem yield (h : k.yield = some k') : SameNames k k' := by
  obtain ⟨sched, -, rfl⟩ := Option.map_eq_some_iff.mp h
  exact of_semaphores rfl rfl

theorem addToBlocked (mutex pid : ℤ) (k : Kernel) : SameNames k (addToBlocked mutex pid k) := by
  unfold Sync.addToBlocked
  dsimp only
  split
  · exact refl k
  · exact setMutex k mutex _

theorem unblockProcess (mutex : ℤ) (k : Kernel) : SameNames k (unblockProcess mutex k) := by
  unfold Sync.unblockProcess
  dsimp only
  split
  · exact refl k
  · exact (setState k _ _).trans (setMutex _ mutex _)

theorem freeMutex {mutex : ℤ} (h : freeMutex mutex k = some k') : SameNames k k' := by
  unfold Sync.freeMutex at h
  split_ifs at h
  · rw [← Option.some.inj h]
    exact (unblockProcess mutex k).trans (setMutex _ mutex _)
  · rw [← Option.some.inj h]
    exact setMutex k mutex _
  · rw [← Option.some.inj h]
    exact refl k

theorem lockMutex {mutex garbage : ℤ} {returned : Bool}
    (h : lockMutex mutex garbage k = some (returned, k')) : SameNames k k' := by
  unfold Sync.lockMutex at h
  split_ifs at h
  · have hlock := setMutex k mutex (testAndSet (k.mutexes mutex)).2
    dsimp only at h
    split_ifs at h
    · obtain ⟨-, rfl⟩ := Prod.mk.inj (Option.some.inj h)
      exact hlock
    · obtain ⟨k₁, hy, hpair⟩ := Option.map_eq_some_iff.mp h
      obtain ⟨-, rfl⟩ := Prod.mk.inj hpair
      exact (hlock.trans (setState _ garbage .blocked)).trans (yield hy)
    · obtain ⟨k₁, hy, hpair⟩ := Option.map_eq_some_iff.mp h
      obtain ⟨-, rfl⟩ := Prod.mk.inj hpair
      have hqueued := hlock.trans (addToBlocked mutex k.pid _)
      exact (hqueued.trans (setState _ k.pid .blocked)).trans (yield hy)
  · obtain ⟨-, rfl⟩ := Prod.mk.inj (Option.some.inj h)
    exact refl k

theorem getMutexRest {name : ℕ} {i : ℤ} (h : getMutexRest name k = some (i, k')) :
    SameNames k k' := by
  rcases getMutexRest_cases h with ⟨-, hf⟩ | ⟨-, -, -, hf⟩ | ⟨-, -, hf⟩
  · exact freeMutex hf
  · exact freeMutex hf
  · exact (setMutex k i _).trans (freeMutex hf)

theorem closeMutex {mutex : ℤ} (h : closeMutex mutex k = some k') : SameNames k k' := by
  rcases closeMutex_cases h with rfl | ⟨-, -, rfl⟩
  · exact refl _
  · exact of_semaphores rfl rfl

theorem addToSemBlocked (j pid : ℤ) (k : Kernel) : SameNames k (addToSemBlocked j pid k) := by
  unfold Sync.addToSemBlocked
  dsimp only
  split
  · exact refl k
  · exact setSemaphore rfl rfl rfl

theorem unblockProcessSemaphore (j : ℤ) (k : Kernel) :
    SameNames k (unblockProcessSemaphore j k) := by
  unfold Sync.unblockProcessSemaphore
  dsimp only
  split
  · exact refl k
  · rename_i pid _
    exact (setState k pid .ready).trans (setSemaphore rfl rfl rfl)

theorem waitRest {returned : Bool} (h : waitRest j k = some (returned, k')) : SameNames k k' := by
  have hdecrement : SameNames k (decrement j k) := setSemaphore rfl rfl rfl
  unfold Sync.waitRest at h
  dsimp only at h
  split_ifs at h
  · obtain ⟨k₁, hf, hpair⟩ := Option.map_eq_some_iff.mp h
    obtain ⟨-, rfl⟩ := Prod.mk.inj hpair
    exact hdecrement.trans (freeMutex hf)
  · obtain ⟨k₁, hf, hmap⟩ := Option.bind_eq_some_iff.mp h
    obtain ⟨k₂, hy, hpair⟩ := Option.map_eq_some_iff.mp hmap
    obtain ⟨-, rfl⟩ := Prod.mk.inj hpair
    have hqueued := hdecrement.trans (addToSemBlocked j (decrement j k).pid _)
    have hblocked := hqueued.trans (setState _ (decrement j k).pid .blocked)
    exact (hblocked.trans (freeMutex hf)).trans (yield hy)

theorem signal (h : signal j k = some k') : SameNames k k' := by
  unfold Sync.signal at h
  split_ifs at h
  · set woken := Sync.unblockProcessSemaphore j k with hwoken
    have hnames : SameNames k (woken.setSemaphore j { woken.semaphores j with
        cardinalBlocked := (woken.semaphores j).cardinalBlocked - 1 }) :=
      (unblockProcessSemaphore j k).trans (setSemaphore rfl rfl rfl)
    rw [← Option.some.inj h]
    exact hnames.trans (setSemaphore rfl rfl rfl)
  · rw [← Option.some.inj h]
    exact setSemaphore rfl rfl rfl
  · rw [← Option.some.inj h]
    exact refl k

end SameNames

end

/-! ### The operations -/

/-- The names, the number of processes that were created, the accounts of the semaphores in
`quiet`, and what the processes other than `me` are suspended in. -/
structure Steady (quiet : Set ℤ) (me : ℤ) (s t : Machine) : Prop where
  names : SameNames s.kernel t.kernel
  count : s.kernel.sched.pid ≤ t.kernel.sched.pid
  account : ∀ j ∈ quiet, t.ledger.account j = s.ledger.account j
  pending : ∀ p ≠ me, t.pending p = s.pending p

/-- The operations that neither create nor close a semaphore nor change the memory. -/
def Op.KeepsNames : Op → Prop
  | .reserve .. => False
  | .createSemaphoreEnd .. => False
  | .closeSemaphore _ => False
  | .store _ => False
  | _ => True

section

variable {quiet : Set ℤ} {me : ℤ} {s t u : Machine} {j garbage : ℤ}

theorem Steady.refl (quiet : Set ℤ) (me : ℤ) (s : Machine) : Steady quiet me s s :=
  ⟨SameNames.refl _, le_rfl, fun _ _ => rfl, fun _ _ => rfl⟩

theorem Steady.trans (h : Steady quiet me s t) (g : Steady quiet me t u) : Steady quiet me s u :=
  ⟨h.names.trans g.names, h.count.trans g.count,
    fun j hj => (g.account j hj).trans (h.account j hj),
    fun p hp => (g.pending p hp).trans (h.pending p hp)⟩

theorem Steady.mono {quiet' : Set ℤ} (h : Steady quiet me s t) (hsub : quiet' ⊆ quiet) :
    Steady quiet' me s t := ⟨h.names, h.count, fun j hj => h.account j (hsub hj), h.pending⟩

theorem Steady.returned (h : Steady quiet me s t) (hj : j ∈ quiet) :
    t.ledger.returned j = s.ledger.returned j := congrArg Account.returned (h.account j hj)

theorem Steady.signals (h : Steady quiet me s t) (hj : j ∈ quiet) :
    t.ledger.signals j = s.ledger.signals j := congrArg Account.signals (h.account j hj)

theorem Steady.start (h : Steady quiet me s t) (hj : j ∈ quiet) :
    t.ledger.start j = s.ledger.start j := congrArg Account.start (h.account j hj)

theorem Steady.generation (h : Steady quiet me s t) (hj : j ∈ quiet) :
    t.ledger.generation j = s.ledger.generation j :=
  congrArg Account.generation (h.account j hj)

theorem op_names {op : Op} (hkeeps : op.KeepsNames) (hrun : op.perform s = some t) :
    SameNames s.kernel t.kernel := by
  cases op with
  | switch =>
    obtain ⟨k', hk, rfl⟩ := Option.map_eq_some_iff.mp hrun
    exact .yield hk
  | createProcess page =>
    obtain rfl := Option.some.inj hrun
    exact .of_semaphores rfl rfl
  | removeProcess pid =>
    obtain ⟨sched, -, rfl⟩ := Option.map_eq_some_iff.mp hrun
    exact .of_semaphores rfl rfl
  | lock mutex garbage rest =>
    obtain ⟨⟨returned, u⟩, hlock, rfl⟩ := Option.map_eq_some_iff.mp hrun
    obtain ⟨⟨b, k'⟩, hk, hpair⟩ := Option.map_eq_some_iff.mp hlock
    cases b with
    | true =>
      obtain ⟨-, rfl⟩ := Prod.mk.inj hpair
      exact .lockMutex hk
    | false =>
      obtain ⟨-, rfl⟩ := Prod.mk.inj hpair
      exact .lockMutex hk
  | free mutex =>
    obtain ⟨k', hk, rfl⟩ := Option.map_eq_some_iff.mp hrun
    exact .freeMutex hk
  | getMutexEnd name =>
    obtain ⟨⟨i, k'⟩, hk, rfl⟩ := Option.map_eq_some_iff.mp hrun
    exact .getMutexRest hk
  | close mutex =>
    obtain ⟨k', hk, rfl⟩ := Option.map_eq_some_iff.mp hrun
    exact .closeMutex hk
  | waitEnd i =>
    obtain ⟨⟨returned, k'⟩, hk, rfl⟩ := Option.map_eq_some_iff.mp hrun
    cases returned with
    | true => exact .waitRest hk
    | false => exact .waitRest hk
  | signal i =>
    obtain ⟨k', hk, rfl⟩ := Option.map_eq_some_iff.mp hrun
    exact .signal hk
  | wake =>
    obtain rfl := Option.some.inj hrun
    rw [wake_kernel]
    exact .refl _
  | reserve index name => exact hkeeps.elim
  | createSemaphoreEnd index name start pid => exact hkeeps.elim
  | closeSemaphore i => exact hkeeps.elim
  | store strings => exact hkeeps.elim

theorem op_count {op : Op} (h : Settled s) (henabled : op.Enabled s)
    (hrun : op.perform s = some t) : s.kernel.sched.pid ≤ t.kernel.sched.pid := by
  cases op with
  | switch => exact (h.switch hrun).2.count
  | createProcess page =>
    obtain rfl := Option.some.inj hrun
    exact (h.createProcess henabled).2.count
  | removeProcess pid => exact (h.removeProcess hrun).2.1.ge
  | lock mutex garbage rest =>
    obtain ⟨⟨returned, u⟩, hlock, rfl⟩ := Option.map_eq_some_iff.mp hrun
    exact (h.lock henabled hlock).2.count
  | free mutex => exact (h.free hrun).2.count
  | getMutexEnd name => exact (h.getMutexEnd hrun).2.count
  | close mutex => exact (h.close hrun).2.count
  | reserve index name =>
    obtain rfl := Option.some.inj hrun
    exact (h.reserve index name).2.count
  | createSemaphoreEnd index name start pid => exact (h.createSemaphoreEnd hrun).2.count
  | closeSemaphore i => exact (h.closeSemaphore hrun).2.count
  | waitEnd i => exact (h.waitEnd henabled hrun).2.1.count
  | signal i => exact (h.signal hrun).2.1.count.ge
  | wake =>
    obtain rfl := Option.some.inj hrun
    rw [wake_kernel]
  | store strings =>
    obtain rfl := Option.some.inj hrun
    exact (h.store strings).2.count

/-- Only the running process is suspended or woken. -/
theorem op_pending {op : Op} (hrun : op.perform s = some t) {p : ℤ} (hp : p ≠ s.pid) :
    t.pending p = s.pending p := by
  cases op with
  | lock mutex garbage rest =>
    obtain ⟨⟨returned, u⟩, hlock, rfl⟩ := Option.map_eq_some_iff.mp hrun
    obtain ⟨⟨b, k'⟩, -, hpair⟩ := Option.map_eq_some_iff.mp hlock
    cases b with
    | true =>
      obtain ⟨-, rfl⟩ := Prod.mk.inj hpair
      rfl
    | false =>
      obtain ⟨-, rfl⟩ := Prod.mk.inj hpair
      exact assign_ne _ _ hp
  | waitEnd i =>
    obtain ⟨⟨returned, k'⟩, -, rfl⟩ := Option.map_eq_some_iff.mp hrun
    cases returned with
    | true => rfl
    | false => exact assign_ne _ _ hp
  | wake =>
    obtain rfl := Option.some.inj hrun
    rw [wake_pending, assign_ne _ _ hp]
  | createProcess page =>
    obtain rfl := Option.some.inj hrun
    rfl
  | reserve index name =>
    obtain rfl := Option.some.inj hrun
    rfl
  | store strings =>
    obtain rfl := Option.some.inj hrun
    rfl
  | _ =>
    obtain ⟨-, -, rfl⟩ := Option.map_eq_some_iff.mp hrun
    rfl

theorem op_steady (op : Op) (h : Settled s) (henabled : op.Enabled s) (hkeeps : op.KeepsNames)
    (hquiet : ∀ j ∈ quiet, ¬ op.Touches j s) (hrun : op.perform s = some t) :
    Steady quiet s.pid s t :=
  ⟨op_names hkeeps hrun, op_count h henabled hrun,
    fun j hj => (op_untouched h henabled (hquiet j hj) hrun).account, fun _ => op_pending hrun⟩

end

/-! ### Calls on other objects -/

/-- The rest of a call that neither creates a semaphore nor waits at one of `own`. -/
def Rest.foreign (own : List ℤ) : Rest → Bool
  | .wait j => j ∉ own
  | .semCreate _ _ => false
  | .createSemaphore _ _ _ _ => false
  | _ => true

def Pending.foreign (own : List ℤ) : Pending → Bool
  | .locking _ rest => rest.foreign own
  | .sleeping j _ => j ∉ own

/-- Nothing is done to the semaphores in `own`, to the names or to the memory. -/
def Action.foreign (own : List ℤ) (s : Machine) : Action → Bool
  | .semCreate _ _ _ => false
  | .semClose _ => false
  | .store _ => false
  | .wait j _ => j ∉ own
  | .signal j => j ∉ own
  | .resume _ => (s.pending s.pid).all fun c => c.foreign own
  | _ => true

/-- `wait`, or the rest of it when the process is suspended there. -/
def waitOn (semaphore garbage : ℤ) (s : Machine) : Option Machine :=
  step s (if s.idle then .wait semaphore garbage else .resume garbage)

/-- Where a call of `wait` on `j` is suspended. -/
def Pending.waitsAt (l : Ledger) (j : ℤ) : Pending → Prop
  | .locking _ rest => rest = .wait j
  | .sleeping i g => i = j ∧ g = l.generation j

/-- Process `me` is in a call of `wait` on `j`: it is suspended or the call has returned. -/
structure Waits (j me : ℤ) (s t : Machine) : Prop where
  steady : Steady {i | i ≠ j} me s t
  start : t.ledger.start j = s.ledger.start j
  generation : t.ledger.generation j = s.ledger.generation j
  signals : t.ledger.signals j = s.ledger.signals j
  outcome : (t.pending me = none ∧ t.ledger.returned j = s.ledger.returned j + 1) ∨
    ((∃ c, t.pending me = some c ∧ c.waitsAt t.ledger j) ∧
      t.ledger.returned j = s.ledger.returned j)

section

variable {own : List ℤ} {me : ℤ} {s t u : Machine} {j garbage : ℤ}

theorem lock_steady {mutex : ℤ} {rest : Rest} {returned : Bool} (h : Settled s)
    (hidle : s.idle = true) (hlock : s.lock mutex garbage rest = some (returned, t)) :
    Steady Set.univ s.pid s t ∧ Settled t := by
  have hrun : (Op.lock mutex garbage rest).perform s = some t := by
    rw [Op.perform, hlock, Option.map_some]
  exact ⟨op_steady (.lock mutex garbage rest) h hidle trivial (fun _ _ ht => ht) hrun,
    (h.lock hidle hlock).1⟩

theorem wake_steady (h : Settled s) {c : Pending} (hpending : s.pending s.pid = some c)
    {quiet : Set ℤ} (hquiet : ∀ j ∈ quiet, ∀ g, c ≠ .sleeping j g) :
    Steady quiet s.pid s s.wake := by
  refine op_steady .wake h (by simp [Op.Enabled, Machine.idle, hpending]) trivial ?_ rfl
  rintro j hj ⟨g, hg⟩
  rw [hpending] at hg
  exact hquiet j hj g (Option.some.inj hg)

theorem proceed_steady {rest : Rest} (h : Settled s) (hidle : s.idle = true)
    (hrest : rest.foreign own = true) (hrun : s.proceed garbage rest = some t) :
    Steady {j | j ∈ own} s.pid s t := by
  cases rest with
  | lockMutex =>
    obtain rfl := Option.some.inj hrun
    exact Steady.refl _ _ _
  | getMutex name =>
    exact op_steady (.getMutexEnd name) h trivial trivial (fun _ _ ht => ht) hrun
  | semCreate name start => exact absurd hrest (by simp [Rest.foreign])
  | createSemaphore index name start pid => exact absurd hrest (by simp [Rest.foreign])
  | wait i =>
    have hi : i ∉ own := by simpa [Rest.foreign] using hrest
    exact op_steady (.waitEnd i) h hidle trivial (fun j hj he => hi (he ▸ hj)) hrun

theorem lockThen_steady {mutex : ℤ} {rest : Rest} (h : Settled s) (hidle : s.idle = true)
    (hrest : rest.foreign own = true) (hrun : s.lockThen mutex garbage rest = some t) :
    Steady {j | j ∈ own} s.pid s t := by
  rcases lockThen_cases hrun with hlock | ⟨u, hlock, hrun⟩
  · exact (lock_steady h hidle hlock).1.mono (Set.subset_univ _)
  · obtain ⟨hsteady, hu⟩ := lock_steady h hidle hlock
    obtain ⟨hsched, -, hpending⟩ := lock_returned hlock
    have hpid : u.pid = s.pid := congrArg getCurrentPid hsched
    have hrest := proceed_steady hu (idle_of_sched hsched hpending hidle) hrest hrun
    rw [hpid] at hrest
    exact (hsteady.mono (Set.subset_univ _)).trans hrest

theorem resume_steady (h : Settled s) (hforeign : (Action.resume garbage).foreign own s = true)
    (hrun : s.resume garbage = some t) : Steady {j | j ∈ own} s.pid s t := by
  rcases resume_cases hrun with ⟨mutex, rest, hpending, hrest⟩ | ⟨i, g, hpending, rfl⟩
  · have hwake : Steady {j | j ∈ own} s.pid s s.wake :=
      wake_steady h hpending fun _ _ _ => by simp
    rw [Action.foreign, hpending] at hforeign
    have hproceed := proceed_steady h.wake wake_idle hforeign hrest
    rw [wake_pid] at hproceed
    exact hwake.trans hproceed
  · rw [Action.foreign, hpending] at hforeign
    refine wake_steady h hpending fun j hj g' he => ?_
    obtain ⟨rfl, -⟩ := Pending.sleeping.inj he
    exact absurd hj (by simpa [Pending.foreign] using hforeign)

theorem step_steady {a : Action} (h : Settled s) (hforeign : a.foreign own s = true)
    (hstep : step s a = some t) : Steady {j | j ∈ own} s.pid s t := by
  cases a with
  | resume garbage => exact resume_steady h hforeign hstep
  | tick =>
    simp only [step] at hstep
    split_ifs at hstep
    exact op_steady .switch h trivial trivial (fun _ _ ht => ht) hstep
  | createProcess page =>
    simp only [step] at hstep
    split_ifs at hstep with hc
    exact op_steady (.createProcess page) h hc.2 trivial (fun _ _ ht => ht) hstep
  | removeProcess pid =>
    simp only [step] at hstep
    split_ifs at hstep
    exact op_steady (.removeProcess pid) h trivial trivial (fun _ _ ht => ht) hstep
  | lockMutex mutex garbage =>
    obtain ⟨hidle, hrun⟩ := step_call hstep
    exact lockThen_steady h hidle rfl hrun
  | freeMutex mutex =>
    obtain ⟨-, hrun⟩ := step_call hstep
    exact op_steady (.free mutex) h trivial trivial (fun _ _ ht => ht) hrun
  | getMutex name garbage =>
    obtain ⟨hidle, hrun⟩ := step_call hstep
    exact lockThen_steady h hidle rfl hrun
  | closeMutex mutex =>
    obtain ⟨-, hrun⟩ := step_call hstep
    exact op_steady (.close mutex) h trivial trivial (fun _ _ ht => ht) hrun
  | wait i garbage =>
    obtain ⟨hidle, hrun⟩ := step_call hstep
    simp only [Machine.call, Machine.wait] at hrun
    split_ifs at hrun
    · refine lockThen_steady h hidle ?_ hrun
      exact hforeign
    · rw [← Option.some.inj hrun]
      exact Steady.refl _ _ _
  | signal i =>
    obtain ⟨-, hrun⟩ := step_call hstep
    have hi : i ∉ own := by simpa [Action.foreign] using hforeign
    exact op_steady (.signal i) h trivial trivial (fun j hj he => hi (he ▸ hj)) hrun
  | semCreate name start garbage => exact absurd hforeign (by simp [Action.foreign])
  | semClose i => exact absurd hforeign (by simp [Action.foreign])
  | store strings => exact absurd hforeign (by simp [Action.foreign])

/-! ### Waiting and signalling -/

theorem Waits.of_steady (hsteady : Steady {i | i ≠ j} me s u)
    (haccount : u.ledger.account j = s.ledger.account j) (h : Waits j me u t) :
    Waits j me s t := by
  have hgeneration := congrArg Account.generation haccount
  have hstart := congrArg Account.start haccount
  have hsignals := congrArg Account.signals haccount
  have hreturned := congrArg Account.returned haccount
  refine ⟨hsteady.trans h.steady, h.start.trans hstart, h.generation.trans hgeneration,
    h.signals.trans hsignals, ?_⟩
  simp only [Ledger.account] at hreturned
  rw [← hreturned]
  exact h.outcome

theorem waitEnd_waits (h : Settled s) (hidle : s.idle = true) (hrun : s.waitEnd j = some t) :
    Waits j s.pid s t := by
  have hsteady : Steady {i | i ≠ j} s.pid s t :=
    op_steady (.waitEnd j) h hidle trivial (fun i hi he => hi he.symm) hrun
  obtain ⟨-, -, hcases⟩ := waitEnd_spec h hidle hrun
  rcases hcases with ⟨-, hpending, -, haccount⟩ | ⟨-, hpending, haccount, -⟩
  · refine ⟨hsteady, congrArg Account.start haccount, congrArg Account.generation haccount,
      congrArg Account.signals haccount, Or.inl ⟨?_, congrArg Account.returned haccount⟩⟩
    rw [hpending]
    exact Machine.pending_of_idle hidle
  · have hgeneration : t.ledger.generation j = s.ledger.generation j :=
      congrArg Account.generation haccount
    refine ⟨hsteady, congrArg Account.start haccount, hgeneration,
      congrArg Account.signals haccount,
      Or.inr ⟨⟨.sleeping j (s.ledger.generation j), ?_, ⟨rfl, hgeneration.symm⟩⟩,
        congrArg Account.returned haccount⟩⟩
    rw [hpending, assign_self]

/-- A call of `wait` on a semaphore that is in use. -/
theorem step_wait (h : Settled s) (hvalid : isValidSemaphore j s.kernel = true)
    (hstep : step s (.wait j garbage) = some t) : Waits j s.pid s t := by
  obtain ⟨hidle, hrun⟩ := step_call hstep
  simp only [Machine.call, Machine.wait, hvalid, not_true, if_false] at hrun
  split_ifs at hrun
  rcases lockThen_cases hrun with hlock | ⟨u, hlock, hend⟩
  · obtain ⟨hsteady, -⟩ := lock_steady h hidle hlock
    have haccount := hsteady.account j (Set.mem_univ j)
    exact ⟨hsteady.mono (Set.subset_univ _), congrArg Account.start haccount,
      congrArg Account.generation haccount, congrArg Account.signals haccount,
      Or.inr ⟨⟨.locking (s.kernel.semaphores j).mutex (.wait j), lock_pending hlock, rfl⟩,
        congrArg Account.returned haccount⟩⟩
  · obtain ⟨hsteady, hu⟩ := lock_steady h hidle hlock
    obtain ⟨hsched, -, hpending⟩ := lock_returned hlock
    have hpid : u.pid = s.pid := congrArg getCurrentPid hsched
    have hwaits := waitEnd_waits hu (idle_of_sched hsched hpending hidle) hend
    rw [hpid] at hwaits
    exact hwaits.of_steady (hsteady.mono (Set.subset_univ _)) (hsteady.account j (Set.mem_univ j))

/-- Nobody calls `signal`. -/
theorem Waits.signals_eq (h : Waits j me s t) (i : ℤ) :
    t.ledger.signals i = s.ledger.signals i := by
  by_cases hi : i = j
  · rw [hi, h.signals]
  · exact h.steady.signals hi

/-- The process goes on in a call of `wait`. -/
theorem step_resume (h : Settled s) {c : Pending} (hpending : s.pending s.pid = some c)
    (hwaits : c.waitsAt s.ledger j) (hstep : step s (.resume garbage) = some t) :
    Waits j s.pid s t := by
  rcases resume_cases hstep with ⟨mutex, rest, hc, hend⟩ | ⟨i, g, hc, rfl⟩
  · obtain rfl : c = .locking mutex rest := Option.some.inj (hpending.symm.trans hc)
    obtain rfl : rest = .wait j := hwaits
    have hsteady : Steady Set.univ s.pid s s.wake :=
      wake_steady h hpending fun _ _ _ => by simp
    have hrest := waitEnd_waits h.wake wake_idle hend
    rw [wake_pid] at hrest
    exact hrest.of_steady (hsteady.mono (Set.subset_univ _)) (hsteady.account j (Set.mem_univ j))
  · obtain rfl : c = .sleeping i g := Option.some.inj (hpending.symm.trans hc)
    obtain ⟨rfl, rfl⟩ := hwaits
    obtain ⟨-, -, haccount⟩ := wake_spec hpending
    rw [if_pos rfl] at haccount
    refine ⟨wake_steady h hpending fun j hj g he => hj (Pending.sleeping.inj he).1.symm,
      congrArg Account.start haccount, congrArg Account.generation haccount,
      congrArg Account.signals haccount, Or.inl ⟨?_, congrArg Account.returned haccount⟩⟩
    rw [wake_pending, assign_self]

theorem step_signal (h : Settled s) (hvalid : isValidSemaphore j s.kernel = true)
    (hstep : step s (.signal j) = some t) :
    Steady {i | i ≠ j} s.pid s t ∧ t.pending s.pid = none ∧
      t.ledger.start j = s.ledger.start j ∧ t.ledger.generation j = s.ledger.generation j ∧
      t.ledger.signals j = s.ledger.signals j + 1 ∧
      t.ledger.returned j = s.ledger.returned j := by
  obtain ⟨hidle, hrun⟩ := step_call hstep
  have hsteady : Steady {i | i ≠ j} s.pid s t :=
    op_steady (.signal j) h trivial trivial (fun i hi he => hi he.symm) hrun
  obtain ⟨hpending, -, -⟩ := signal_spec h hrun
  refine ⟨hsteady, by rw [hpending]; exact Machine.pending_of_idle hidle, ?_⟩
  obtain ⟨k', -, rfl⟩ := Option.map_eq_some_iff.mp hrun
  simp [hvalid, Ledger.signal]

end

end GatOS.Sync
