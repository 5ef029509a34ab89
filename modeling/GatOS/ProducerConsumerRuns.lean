import GatOS.ProducerConsumer

/-!
# Runs of the producers and consumers

Every step keeps the calls on the three semaphores in balance with the items that were moved and
with the places of the processes. So the buffer never holds more items than it has cells, at most
one process is at the buffer, and the items come out in the order in which they went in.
-/
namespace GatOS.ProducerConsumer
open Scheduler Sync Transition

/-! ### The places -/

namespace Worker

/-- Between the two calls of `wait` and the access to the buffer. -/
def paid (role : Role) (x : Worker) : Bool :=
  x.role = role ∧ (x.place = .waitItem ∨ x.place = .access)

/-- Between the access to the buffer and the second call of `signal`. -/
def owes (role : Role) (x : Worker) : Bool :=
  x.role = role ∧ (x.place = .advance ∨ x.place = .signalItem ∨ x.place = .signalCount)

/-- Between the access to the buffer and the increment of the index. -/
def moving (role : Role) (x : Worker) : Bool := x.role = role ∧ x.place = .advance

/-- Between `wait` and `signal` on `itemMutex`. -/
def inside (x : Worker) : Bool :=
  x.place = .access ∨ x.place = .advance ∨ x.place = .signalItem

end Worker

namespace State

def awaited (s : State) : Role → ℤ
  | .producer => s.emptyCount
  | .consumer => s.fullCount

def posted (s : State) : Role → ℤ
  | .producer => s.fullCount
  | .consumer => s.emptyCount

def moved (s : State) : Role → List ℤ
  | .producer => s.inserted
  | .consumer => s.removed

def index (s : State) : Role → ℕ
  | .producer => s.w
  | .consumer => s.r

/-- The number of the processes that meet a condition, removed ones included. -/
def number (s : State) (q : Worker → Bool) : ℕ :=
  census s.started s.workers fun o => o.any q

/-- The semaphore that a process calls `wait` on next. -/
def waitsFor (s : State) (x : Worker) : Option ℤ :=
  match x.place with
  | .waitCount => some (s.awaited x.role)
  | .waitItem => some s.itemMutex
  | _ => none

end State

/-- The semaphores that a process has looked up. -/
def Worker.Opened (s : State) (x : Worker) : Prop :=
  match x.place with
  | .openItem => True
  | .openFull => x.itemSem = s.itemMutex
  | .openEmpty => x.itemSem = s.itemMutex ∧ x.fullSem = s.fullCount
  | _ => x.itemSem = s.itemMutex ∧ x.fullSem = s.fullCount ∧ x.emptySem = s.emptyCount

/-! ### The invariant -/

/-- The semaphores of the program. -/
structure Equipped (names : Names) (s : State) : Prop where
  machine : machineSystem.Reachable s.machine
  itemMutex : getSemIndex names.itemMutex s.machine.kernel = some s.itemMutex
  fullCount : getSemIndex names.fullCount s.machine.kernel = some s.fullCount
  emptyCount : getSemIndex names.emptyCount s.machine.kernel = some s.emptyCount
  startItem : s.machine.ledger.start s.itemMutex = 1
  startFull : s.machine.ledger.start s.fullCount = 0
  startEmpty : s.machine.ledger.start s.emptyCount = bufferSize

/-- The processes of the program. -/
structure Staffed (s : State) : Prop where
  nodup : s.started.Nodup
  member : ∀ p x, s.workers p = some x → p ∈ s.started
  range : ∀ p ∈ s.started, p < s.machine.kernel.sched.pid
  opened : ∀ p x, s.workers p = some x → x.Opened s
  suspended : ∀ p x c, s.workers p = some x → s.machine.pending p = some c →
    ∃ j, s.waitsFor x = some j ∧ c.waitsAt s.machine.ledger j

/-- The calls on the semaphores, the moved items and the places of the processes. -/
structure Balanced (s : State) : Prop where
  paid : ∀ role, s.machine.ledger.returned (s.awaited role) =
    (s.moved role).length + s.number (Worker.paid role)
  owed : ∀ role, (s.moved role).length =
    s.machine.ledger.signals (s.posted role) + s.number (Worker.owes role)
  inside : s.machine.ledger.returned s.itemMutex =
    s.machine.ledger.signals s.itemMutex + s.number Worker.inside
  bound : ∀ role, s.index role < bufferSize
  index : ∀ role, (s.index role + s.number (Worker.moving role)) % bufferSize =
    (s.moved role).length % bufferSize

/-- The items that were not read yet are in the buffer, in the order in which they went in. -/
def Ordered (s : State) : Prop :=
  s.removed ++ ringContents bufferSize s.buffer s.removed.length
    (s.inserted.length - s.removed.length) = s.inserted

structure Invariant (names : Names) (s : State) : Prop where
  equipped : Equipped names s
  staffed : Staffed s
  balanced : Balanced s
  ordered : Ordered s

section

variable {names : Names} {s t : State} {m : Machine} {p : ℤ} {x x' : Worker} {garbage : ℤ}

/-! ### The semaphores -/

theorem Equipped.distinct (h : Equipped names s) :
    s.itemMutex ≠ s.fullCount ∧ s.itemMutex ≠ s.emptyCount ∧ s.fullCount ≠ s.emptyCount := by
  have hitem := h.startItem
  have hfull := h.startFull
  have hempty := h.startEmpty
  refine ⟨fun he => ?_, fun he => ?_, fun he => ?_⟩
  · rw [he, hfull] at hitem
    exact absurd hitem (by decide)
  · rw [he, hempty] at hitem
    exact absurd hitem (by decide)
  · rw [he, hempty] at hfull
    exact absurd hfull (by decide)

theorem Equipped.itemMutex_ne (h : Equipped names s) (role : Role) :
    s.itemMutex ≠ s.awaited role ∧ s.itemMutex ≠ s.posted role := by
  obtain ⟨hfull, hempty, -⟩ := h.distinct
  cases role with
  | producer => exact ⟨hempty, hfull⟩
  | consumer => exact ⟨hfull, hempty⟩

theorem Equipped.role_ne (h : Equipped names s) {role role' : Role} (hrole : role ≠ role') :
    s.awaited role ≠ s.awaited role' ∧ s.posted role ≠ s.posted role' := by
  obtain ⟨-, -, hne⟩ := h.distinct
  cases role with
  | producer =>
    cases role' with
    | producer => exact absurd rfl hrole
    | consumer => exact ⟨hne.symm, hne⟩
  | consumer =>
    cases role' with
    | producer => exact ⟨hne, hne.symm⟩
    | consumer => exact absurd rfl hrole

theorem Equipped.settled (h : Equipped names s) : Settled s.machine :=
  reachable_settled h.machine

theorem valid_of_getSemIndex {k : Kernel} {name : ℕ} {j : ℤ}
    (h : getSemIndex name k = some j) : isValidSemaphore j k = true := by
  obtain ⟨-, hlt, hused⟩ := firstIndex_spec h
  rw [decide_eq_true_eq] at hused
  rw [isValidSemaphore, if_neg (by omega)]
  exact hused.2

theorem Equipped.valid (h : Equipped names s) {j : ℤ} (hj : j ∈ s.own) :
    isValidSemaphore j s.machine.kernel = true := by
  simp only [State.own, List.mem_cons, List.not_mem_nil, or_false] at hj
  rcases hj with rfl | rfl | rfl
  · exact valid_of_getSemIndex h.itemMutex
  · exact valid_of_getSemIndex h.fullCount
  · exact valid_of_getSemIndex h.emptyCount

/-- A step of the machine that keeps the names and the start values. -/
theorem Equipped.of_step (h : Equipped names s) (hreach : machineSystem.Reachable t.machine)
    (hnames : SameNames s.machine.kernel t.machine.kernel)
    (hstart : ∀ j ∈ s.own, t.machine.ledger.start j = s.machine.ledger.start j)
    (hitem : t.itemMutex = s.itemMutex) (hfull : t.fullCount = s.fullCount)
    (hempty : t.emptyCount = s.emptyCount) : Equipped names t := by
  refine ⟨hreach, ?_, ?_, ?_, ?_, ?_, ?_⟩
  · rw [hnames.getSemIndex, hitem, h.itemMutex]
  · rw [hnames.getSemIndex, hfull, h.fullCount]
  · rw [hnames.getSemIndex, hempty, h.emptyCount]
  · rw [hitem, hstart _ (by simp [State.own]), h.startItem]
  · rw [hfull, hstart _ (by simp [State.own]), h.startFull]
  · rw [hempty, hstart _ (by simp [State.own]), h.startEmpty]

/-- What the semaphores allow, at every moment. -/
theorem Equipped.permits (h : Equipped names s) :
    s.machine.ledger.returned s.itemMutex ≤ 1 + s.machine.ledger.signals s.itemMutex ∧
      s.machine.ledger.returned s.fullCount ≤ s.machine.ledger.signals s.fullCount ∧
      s.machine.ledger.returned s.emptyCount ≤
        bufferSize + s.machine.ledger.signals s.emptyCount := by
  have hitem := returned_le_permits h.machine (j := s.itemMutex) (by rw [h.startItem]; decide)
  have hfull := returned_le_permits h.machine (j := s.fullCount) (by rw [h.startFull])
  have hempty := returned_le_permits h.machine (j := s.emptyCount) (by rw [h.startEmpty]; decide)
  rw [h.startItem] at hitem
  rw [h.startFull] at hfull
  rw [h.startEmpty] at hempty
  exact ⟨by exact_mod_cast hitem, by omega, by exact_mod_cast hempty⟩

/-! ### The processes -/

theorem waitsAt_congr {l l' : Ledger} {j : ℤ} {c : Pending}
    (hgen : l'.generation j = l.generation j) (h : c.waitsAt l j) : c.waitsAt l' j := by
  cases c with
  | locking mutex rest => exact h
  | sleeping i g => exact ⟨h.1, h.2.trans hgen.symm⟩

theorem State.waitsFor_mem (s : State) {j : ℤ} (h : s.waitsFor x = some j) : j ∈ s.own := by
  unfold waitsFor at h
  split at h
  · rw [← Option.some.inj h]
    cases x.role <;> simp [awaited, own]
  · rw [← Option.some.inj h]
    simp [own]
  · exact absurd h (by simp)

/-- Process `p` goes on from `x` to `x'`. -/
theorem Staffed.move (h : Staffed s) (hx : s.workers p = some x)
    (hworkers : t.workers = Function.update s.workers p (some x'))
    (hstarted : t.started = s.started) (hitem : t.itemMutex = s.itemMutex)
    (hfull : t.fullCount = s.fullCount) (hempty : t.emptyCount = s.emptyCount)
    (hcount : s.machine.kernel.sched.pid ≤ t.machine.kernel.sched.pid)
    (hgen : ∀ j ∈ s.own, t.machine.ledger.generation j = s.machine.ledger.generation j)
    (hpending : ∀ q ≠ p, t.machine.pending q = s.machine.pending q)
    (hopened : x'.Opened t)
    (hsuspended : ∀ c, t.machine.pending p = some c →
      ∃ j, t.waitsFor x' = some j ∧ c.waitsAt t.machine.ledger j) : Staffed t := by
  have hne : ∀ q y, t.workers q = some y → (q = p ∧ y = x') ∨ (q ≠ p ∧ s.workers q = some y) := by
    intro q y hy
    rw [hworkers] at hy
    by_cases hq : q = p
    · subst hq
      rw [Function.update_self] at hy
      exact Or.inl ⟨rfl, (Option.some.inj hy).symm⟩
    · rw [Function.update_of_ne hq] at hy
      exact Or.inr ⟨hq, hy⟩
  have hsame : ∀ y : Worker, y.Opened s → y.Opened t := fun y hy => by
    unfold Worker.Opened at *
    rw [hitem, hfull, hempty]
    exact hy
  refine ⟨hstarted ▸ h.nodup, fun q y hy => ?_, fun q hq => ?_, fun q y hy => ?_,
    fun q y c hy hc => ?_⟩
  · rw [hstarted]
    rcases hne q y hy with ⟨rfl, -⟩ | ⟨-, hy⟩
    · exact h.member _ x hx
    · exact h.member q y hy
  · rw [hstarted] at hq
    exact (h.range q hq).trans_le hcount
  · rcases hne q y hy with ⟨-, rfl⟩ | ⟨-, hy⟩
    · exact hopened
    · exact hsame y (h.opened q y hy)
  · rcases hne q y hy with ⟨rfl, rfl⟩ | ⟨hq, hy⟩
    · exact hsuspended c hc
    · rw [hpending q hq] at hc
      obtain ⟨j, hj, hwaits⟩ := h.suspended q y c hy hc
      refine ⟨j, ?_, waitsAt_congr (hgen j (s.waitsFor_mem hj)) hwaits⟩
      rw [← hj]
      simp only [State.waitsFor, State.awaited, hitem, hfull, hempty]

theorem Staffed.idle (h : Staffed s) (hx : s.workers p = some x) (hplace : s.waitsFor x = none) :
    s.machine.pending p = none := by
  cases hc : s.machine.pending p with
  | none => rfl
  | some c =>
    obtain ⟨j, hj, -⟩ := h.suspended p x c hx hc
    rw [hplace] at hj
    exact absurd hj (by simp)

/-! ### The balance -/

theorem State.number_move (h : Staffed s) (hx : s.workers p = some x)
    (hworkers : t.workers = Function.update s.workers p (some x'))
    (hstarted : t.started = s.started) (q : Worker → Bool) :
    t.number q + (q x).toNat = s.number q + (q x').toNat := by
  have hcensus := census_update (f := s.workers) (a := some x') (q := fun o => o.any q) h.nodup
    (h.member p x hx)
  rw [hx] at hcensus
  rw [State.number, hworkers, hstarted]
  exact hcensus

/-- What a step changes in the counts it changes in the places. -/
theorem Balanced.move (h : Balanced s) (hs : Staffed s) (hx : s.workers p = some x)
    (hworkers : t.workers = Function.update s.workers p (some x'))
    (hstarted : t.started = s.started)
    (hpaid : ∀ role, t.machine.ledger.returned (t.awaited role) + (s.moved role).length +
        (x.paid role).toNat = s.machine.ledger.returned (s.awaited role) +
        (t.moved role).length + (x'.paid role).toNat)
    (howed : ∀ role, (t.moved role).length + s.machine.ledger.signals (s.posted role) +
        (x.owes role).toNat = (s.moved role).length +
        t.machine.ledger.signals (t.posted role) + (x'.owes role).toNat)
    (hinside : t.machine.ledger.returned t.itemMutex + s.machine.ledger.signals s.itemMutex +
        x.inside.toNat = s.machine.ledger.returned s.itemMutex +
        t.machine.ledger.signals t.itemMutex + x'.inside.toNat)
    (hbound : ∀ role, t.index role < bufferSize)
    (hindex : ∀ role, (t.index role + (x'.moving role).toNat + (s.moved role).length) %
        bufferSize = (s.index role + (x.moving role).toNat + (t.moved role).length) %
        bufferSize) : Balanced t := by
  have hmove := State.number_move hs hx hworkers hstarted
  refine ⟨fun role => ?_, fun role => ?_, ?_, hbound, fun role => ?_⟩
  · have := h.paid role
    have := hmove (Worker.paid role)
    have := hpaid role
    omega
  · have := h.owed role
    have := hmove (Worker.owes role)
    have := howed role
    omega
  · have := h.inside
    have := hmove Worker.inside
    omega
  · have := h.index role
    have := hmove (Worker.moving role)
    have := hindex role
    unfold bufferSize at *
    omega

/-! ### Statements that do not touch the buffer -/

/-- Neither the buffer nor a permit is held. -/
def Worker.outside (x : Worker) : Prop :=
  x.place ≠ .waitItem ∧ x.place ≠ .access ∧ x.place ≠ .advance ∧ x.place ≠ .signalItem ∧
    x.place ≠ .signalCount

theorem Worker.outside_counts (h : x.outside) (role : Role) :
    x.paid role = false ∧ x.owes role = false ∧ x.moving role = false ∧ x.inside = false := by
  obtain ⟨h1, h2, h3, h4, h5⟩ := h
  simp [paid, owes, moving, inside, h1, h2, h3, h4, h5]

/-- A statement that is no system call, in which the running process goes on from `x` to `x'`. -/
theorem Invariant.of_statement (h : Invariant names s) (hx : s.workers s.machine.pid = some x)
    (hwaits : s.waitsFor x = none) (hopened : x'.Opened s) (hmachine : t.machine = s.machine)
    (hworkers : t.workers = Function.update s.workers s.machine.pid (some x'))
    (hstarted : t.started = s.started) (hitem : t.itemMutex = s.itemMutex)
    (hfull : t.fullCount = s.fullCount) (hempty : t.emptyCount = s.emptyCount)
    (hpaid : ∀ role, (s.moved role).length + (x.paid role).toNat =
      (t.moved role).length + (x'.paid role).toNat)
    (howed : ∀ role, (t.moved role).length + (x.owes role).toNat =
      (s.moved role).length + (x'.owes role).toNat)
    (hinside : x'.inside = x.inside) (hbound : ∀ role, t.index role < bufferSize)
    (hindex : ∀ role, (t.index role + (x'.moving role).toNat + (s.moved role).length) %
      bufferSize = (s.index role + (x.moving role).toNat + (t.moved role).length) % bufferSize)
    (hordered : Ordered t) : Invariant names t := by
  have hawaited : ∀ role, t.awaited role = s.awaited role := fun role => by
    cases role <;> simp [State.awaited, hfull, hempty]
  have hposted : ∀ role, t.posted role = s.posted role := fun role => by
    cases role <;> simp [State.posted, hfull, hempty]
  have hidle := h.staffed.idle hx hwaits
  have hopened' : x'.Opened t := by
    unfold Worker.Opened at *
    rw [hitem, hfull, hempty]
    exact hopened
  refine ⟨h.equipped.of_step (hmachine ▸ h.equipped.machine) (hmachine ▸ SameNames.refl _)
      (fun _ _ => by rw [hmachine]) hitem hfull hempty,
    h.staffed.move hx hworkers hstarted hitem hfull hempty (by rw [hmachine])
      (fun _ _ => by rw [hmachine]) (fun _ _ => by rw [hmachine]) hopened' fun c hc => ?_,
    h.balanced.move h.staffed hx hworkers hstarted (fun role => ?_) (fun role => ?_) ?_ hbound
      hindex, hordered⟩
  · rw [hmachine, hidle] at hc
    exact absurd hc (by simp)
  · rw [hmachine, hawaited]
    have := hpaid role
    omega
  · rw [hmachine, hposted]
    have := howed role
    omega
  · rw [hmachine, hitem, hinside]

/-- A statement on the variables of the process. -/
theorem Invariant.of_local (h : Invariant names s) (hx : s.workers s.machine.pid = some x)
    (hwaits : s.waitsFor x = none) (hout : x.outside) (hout' : x'.outside) (hopened : x'.Opened s)
    (i : ℤ) : Invariant names { s.setWorker x' with i := i } := by
  have hcounts := Worker.outside_counts hout
  have hcounts' := Worker.outside_counts hout'
  refine h.of_statement hx hwaits hopened rfl rfl rfl rfl rfl rfl (fun role => ?_)
    (fun role => ?_) ?_ h.balanced.bound (fun role => ?_) h.ordered
  · rw [(hcounts role).1, (hcounts' role).1]
    rfl
  · rw [(hcounts role).2.1, (hcounts' role).2.1]
    rfl
  · rw [(hcounts .producer).2.2.2, (hcounts' .producer).2.2.2]
  · rw [(hcounts role).2.2.1, (hcounts' role).2.2.1]
    exact congrArg (· % bufferSize) rfl

/-! ### System calls -/

/-- A step of the machine in which the running process goes on from `x` to `x'`. -/
theorem Invariant.of_call (h : Invariant names s) (hx : s.workers s.machine.pid = some x) {j : ℤ}
    (hreach : machineSystem.Reachable m) (hsteady : Steady {i | i ≠ j} s.machine.pid s.machine m)
    (hstart : m.ledger.start j = s.machine.ledger.start j)
    (hgen : m.ledger.generation j = s.machine.ledger.generation j) (hopened : x'.Opened s)
    (hsuspended : ∀ c, m.pending s.machine.pid = some c →
      ∃ i, s.waitsFor x' = some i ∧ c.waitsAt m.ledger i)
    (hpaid : ∀ role, m.ledger.returned (s.awaited role) + (x.paid role).toNat =
      s.machine.ledger.returned (s.awaited role) + (x'.paid role).toNat)
    (howed : ∀ role, s.machine.ledger.signals (s.posted role) + (x.owes role).toNat =
      m.ledger.signals (s.posted role) + (x'.owes role).toNat)
    (hinside : m.ledger.returned s.itemMutex + s.machine.ledger.signals s.itemMutex +
      x.inside.toNat = s.machine.ledger.returned s.itemMutex +
      m.ledger.signals s.itemMutex + x'.inside.toNat)
    (hmoving : ∀ role, x'.moving role = x.moving role) :
    Invariant names { s.setWorker x' with machine := m } := by
  have hstarts : ∀ i, m.ledger.start i = s.machine.ledger.start i := fun i => by
    by_cases hi : i = j
    · rw [hi, hstart]
    · exact hsteady.start hi
  have hgens : ∀ i, m.ledger.generation i = s.machine.ledger.generation i := fun i => by
    by_cases hi : i = j
    · rw [hi, hgen]
    · exact hsteady.generation hi
  refine ⟨h.equipped.of_step hreach hsteady.names (fun i _ => hstarts i) rfl rfl rfl,
    h.staffed.move hx rfl rfl rfl rfl rfl hsteady.count (fun i _ => hgens i) hsteady.pending
      hopened hsuspended, ?_, h.ordered⟩
  refine h.balanced.move h.staffed hx rfl rfl (fun role => ?_) (fun role => ?_) hinside
    h.balanced.bound fun role => ?_
  · have := hpaid role
    change m.ledger.returned (s.awaited role) + (s.moved role).length + _ =
      _ + (s.moved role).length + _
    omega
  · have := howed role
    change (s.moved role).length + _ + _ =
      (s.moved role).length + m.ledger.signals (s.posted role) + _
    omega
  · rw [hmoving role]
    rfl

/-- `wait` on the semaphore that the process is at, or the rest of it. -/
theorem waitOn_waits (h : Invariant names s) (hx : s.workers s.machine.pid = some x) {j : ℤ}
    (hj : s.waitsFor x = some j) (hrun : waitOn j garbage s.machine = some m) :
    machineSystem.Reachable m ∧ Waits j s.machine.pid s.machine m := by
  have hsettled := h.equipped.settled
  unfold waitOn at hrun
  refine ⟨h.equipped.machine.next hrun, ?_⟩
  cases hc : s.machine.pending s.machine.pid with
  | none =>
    have hidle : s.machine.idle = true := by rw [Machine.idle, hc]; rfl
    rw [if_pos hidle] at hrun
    exact step_wait hsettled (h.equipped.valid (s.waitsFor_mem hj)) hrun
  | some c =>
    have hidle : ¬ s.machine.idle = true := by simp [Machine.idle, hc]
    rw [if_neg hidle] at hrun
    obtain ⟨i, hi, hwaits⟩ := h.staffed.suspended _ x c hx hc
    obtain rfl : i = j := Option.some.inj (hi.symm.trans hj)
    exact step_resume hsettled hc hwaits hrun

theorem afterCall_returned (hpending : m.pending s.machine.pid = none) :
    s.afterCall x' m = { s.setWorker x' with machine := m } := by
  rw [State.afterCall, if_pos (by rw [hpending]; rfl)]

theorem afterCall_suspended {c : Pending} (hx : s.workers s.machine.pid = some x)
    (hpending : m.pending s.machine.pid = some c) :
    s.afterCall x' m = { s.setWorker x with machine := m } := by
  rw [State.afterCall, if_neg (by rw [hpending]; simp), State.setWorker,
    Function.update_eq_self_iff.mpr hx.symm]

/-- The process stays where it is. -/
theorem Invariant.of_suspended (h : Invariant names s) (hx : s.workers s.machine.pid = some x)
    {j : ℤ} (hj : s.waitsFor x = some j) (hreach : machineSystem.Reachable m)
    (hw : Waits j s.machine.pid s.machine m) {c : Pending}
    (hpending : m.pending s.machine.pid = some c) (hwaits : c.waitsAt m.ledger j)
    (hreturned : m.ledger.returned j = s.machine.ledger.returned j) :
    Invariant names (s.afterCall x' m) := by
  have hsame : ∀ i, m.ledger.returned i = s.machine.ledger.returned i := fun i => by
    by_cases hi : i = j
    · rw [hi, hreturned]
    · exact hw.steady.returned hi
  rw [afterCall_suspended hx hpending]
  refine h.of_call hx hreach hw.steady hw.start hw.generation (h.staffed.opened _ x hx)
    (fun c' hc => ?_) (fun role => by rw [hsame]) (fun role => by rw [hw.signals_eq])
    (by rw [hsame, hw.signals_eq]) fun role => rfl
  obtain rfl := Option.some.inj (hpending.symm.trans hc)
  exact ⟨j, hj, hwaits⟩

/-- Waiting on the semaphore that counts what the process needs. -/
theorem Invariant.waitCount (h : Invariant names s) (hx : s.workers s.machine.pid = some x)
    (hplace : x.place = .waitCount) (hrun : waitOn x.awaited garbage s.machine = some m) :
    Invariant names (s.afterCall { x with place := .waitItem } m) := by
  have hopened := h.staffed.opened _ x hx
  simp only [Worker.Opened, hplace] at hopened
  obtain ⟨hitem, hfull, hempty⟩ := hopened
  have hj : s.waitsFor x = some (s.awaited x.role) := by simp [State.waitsFor, hplace]
  have hawaited : x.awaited = s.awaited x.role := by
    unfold Worker.awaited
    cases x.role with
    | producer => exact hempty
    | consumer => exact hfull
  rw [hawaited] at hrun
  obtain ⟨hreach, hw⟩ := waitOn_waits h hx hj hrun
  rcases hw.outcome with ⟨hpending, hreturned⟩ | ⟨⟨c, hpending, hwaits⟩, hreturned⟩
  · have hitemReturned := hw.steady.returned (h.equipped.itemMutex_ne x.role).1
    rw [afterCall_returned hpending]
    refine h.of_call hx hreach hw.steady hw.start hw.generation ⟨hitem, hfull, hempty⟩
      (fun c hc => ?_) (fun role => ?_) (fun role => ?_) ?_ fun role => ?_
    · rw [hpending] at hc
      exact absurd hc (by simp)
    · by_cases hrole : role = x.role
      · subst hrole
        simp [Worker.paid, hplace, hreturned]
      · have hne := (h.equipped.role_ne hrole).1
        simp [Worker.paid, Ne.symm hrole, hw.steady.returned hne]
    · simp [Worker.owes, hplace, hw.signals_eq]
    · simp [Worker.inside, hplace, hw.signals_eq, hitemReturned]
    · simp [Worker.moving, hplace]
  · exact h.of_suspended hx hj hreach hw hpending hwaits hreturned

/-- Waiting for the buffer. -/
theorem Invariant.waitItem (h : Invariant names s) (hx : s.workers s.machine.pid = some x)
    (hplace : x.place = .waitItem) (hrun : waitOn x.itemSem garbage s.machine = some m) :
    Invariant names (s.afterCall { x with place := .access } m) := by
  have hopened := h.staffed.opened _ x hx
  simp only [Worker.Opened, hplace] at hopened
  have hj : s.waitsFor x = some s.itemMutex := by simp [State.waitsFor, hplace]
  rw [hopened.1] at hrun
  obtain ⟨hreach, hw⟩ := waitOn_waits h hx hj hrun
  rcases hw.outcome with ⟨hpending, hreturned⟩ | ⟨⟨c, hpending, hwaits⟩, hreturned⟩
  · rw [afterCall_returned hpending]
    refine h.of_call hx hreach hw.steady hw.start hw.generation hopened
      (fun c hc => ?_) (fun role => ?_) (fun role => ?_) ?_ fun role => ?_
    · rw [hpending] at hc
      exact absurd hc (by simp)
    · have hne := (h.equipped.itemMutex_ne role).1
      simp [Worker.paid, hplace, hw.steady.returned (Ne.symm hne)]
    · simp [Worker.owes, hplace, hw.signals_eq]
    · simp [Worker.inside, hplace, hw.signals_eq, hreturned]
      omega
    · simp [Worker.moving, hplace]
  · exact h.of_suspended hx hj hreach hw hpending hwaits hreturned

/-- A call of `signal`, which returns. -/
theorem Invariant.of_signal (h : Invariant names s) (hx : s.workers s.machine.pid = some x)
    {j : ℤ} (hj : j ∈ s.own) (hrun : Sync.step s.machine (.signal j) = some m)
    (hopened : x'.Opened s)
    (hpaid : ∀ role, x'.paid role = x.paid role)
    (howed : ∀ role, (x.owes role).toNat =
      (if s.posted role = j then 1 else 0) + (x'.owes role).toNat)
    (hinside : x.inside.toNat = (if s.itemMutex = j then 1 else 0) + x'.inside.toNat)
    (hmoving : ∀ role, x'.moving role = x.moving role) :
    Invariant names (s.afterCall x' m) := by
  obtain ⟨hsteady, hpending, hstart, hgen, hsignals, hreturned⟩ :=
    step_signal h.equipped.settled (h.equipped.valid hj) hrun
  have hsame : ∀ i, m.ledger.returned i = s.machine.ledger.returned i := fun i => by
    by_cases hi : i = j
    · rw [hi, hreturned]
    · exact hsteady.returned hi
  have hcount : ∀ i, m.ledger.signals i =
      s.machine.ledger.signals i + if i = j then 1 else 0 := fun i => by
    split_ifs with hi
    · rw [hi, hsignals]
    · exact hsteady.signals hi
  rw [afterCall_returned hpending]
  refine h.of_call hx (h.equipped.machine.next hrun) hsteady hstart hgen hopened
    (fun c hc => ?_) (fun role => ?_) (fun role => ?_) ?_ hmoving
  · rw [hpending] at hc
    exact absurd hc (by simp)
  · rw [hsame, hpaid]
  · have := howed role
    rw [hcount]
    omega
  · rw [hsame, hcount]
    omega

theorem Invariant.signalItem (h : Invariant names s) (hx : s.workers s.machine.pid = some x)
    (hplace : x.place = .signalItem)
    (hrun : Sync.step s.machine (.signal x.itemSem) = some m) :
    Invariant names (s.afterCall { x with place := .signalCount } m) := by
  have hopened := h.staffed.opened _ x hx
  simp only [Worker.Opened, hplace] at hopened
  rw [hopened.1] at hrun
  refine h.of_signal hx (by simp [State.own]) hrun hopened (fun role => ?_) (fun role => ?_) ?_
    fun role => ?_
  · simp [Worker.paid, hplace]
  · have hne := (h.equipped.itemMutex_ne role).2
    simp [Worker.owes, hplace, Ne.symm hne]
  · simp [Worker.inside, hplace]
  · simp [Worker.moving, hplace]

theorem Invariant.signalCount (h : Invariant names s) (hx : s.workers s.machine.pid = some x)
    (hplace : x.place = .signalCount)
    (hrun : Sync.step s.machine (.signal x.posted) = some m) :
    Invariant names (s.afterCall { x with place := x.role.head } m) := by
  have hopened := h.staffed.opened _ x hx
  simp only [Worker.Opened, hplace] at hopened
  obtain ⟨hitem, hfull, hempty⟩ := hopened
  have hposted : x.posted = s.posted x.role := by
    unfold Worker.posted
    cases x.role with
    | producer => exact hfull
    | consumer => exact hempty
  have hown : s.posted x.role ∈ s.own := by cases x.role <;> simp [State.posted, State.own]
  have hout : Worker.outside { x with place := x.role.head } := by
    cases x.role <;> simp [Worker.outside, Role.head]
  have hcounts := Worker.outside_counts hout
  rw [hposted] at hrun
  refine h.of_signal hx hown hrun ?_ (fun role => ?_) (fun role => ?_) ?_ fun role => ?_
  · unfold Worker.Opened
    cases hr : x.role <;> exact ⟨hitem, hfull, hempty⟩
  · rw [(hcounts role).1]
    simp [Worker.paid, hplace]
  · rw [(hcounts role).2.1]
    by_cases hrole : role = x.role
    · subst hrole
      simp [Worker.owes, hplace]
    · have hne := (h.equipped.role_ne hrole).2
      simp [Worker.owes, Ne.symm hrole, hne]
  · rw [(hcounts .producer).2.2.2]
    have hne := (h.equipped.itemMutex_ne x.role).2
    simp [Worker.inside, hplace, hne]
  · rw [(hcounts role).2.2.1]
    simp [Worker.moving, hplace]

/-! ### The buffer -/

theorem Invariant.one_inside (h : Invariant names s) (hx : s.workers p = some x)
    (hin : x.inside = true) {q : ℤ} {y : Worker} (hy : s.workers q = some y)
    (hin' : y.inside = true) : p = q := by
  have hpermits := h.equipped.permits.1
  have hinside := h.balanced.inside
  have hone : census s.started s.workers (fun o => o.any Worker.inside) ≤ 1 := by
    change s.number Worker.inside ≤ 1
    omega
  refine eq_of_census_le_one h.staffed.nodup hone (h.staffed.member p x hx) ?_
    (h.staffed.member q y hy) ?_
  · simpa [hx] using hin
  · simpa [hy] using hin'

theorem State.exists_of_number_pos {q : Worker → Bool} (h : 0 < s.number q) :
    ∃ p x, s.workers p = some x ∧ q x = true := by
  obtain ⟨p, -, hp⟩ := exists_of_census_pos h
  cases hx : s.workers p with
  | none => simp [hx] at hp
  | some x => exact ⟨p, x, hx, by simpa [hx] using hp⟩

theorem Staffed.number_pos (h : Staffed s) (hx : s.workers p = some x) {q : Worker → Bool}
    (hq : q x = true) : 0 < s.number q := by
  refine census_pos (h.member p x hx) ?_
  simpa [hx] using hq

/-- Nobody else is at the buffer, so the index is the number of moved items. -/
theorem Invariant.index_eq (h : Invariant names s) (hx : s.workers p = some x)
    (hplace : x.place = .access) (role : Role) :
    s.index role = (s.moved role).length % bufferSize := by
  have hnone : s.number (Worker.moving role) = 0 := by
    by_contra hpos
    obtain ⟨q, y, hy, hmoving⟩ := State.exists_of_number_pos (Nat.pos_of_ne_zero hpos)
    have hadvance : y.place = .advance := (of_decide_eq_true hmoving).2
    obtain rfl := h.one_inside hx (by simp [Worker.inside, hplace]) hy
      (by simp [Worker.inside, hadvance])
    obtain rfl : x = y := Option.some.inj (hx.symm.trans hy)
    rw [hplace] at hadvance
    exact absurd hadvance (by simp)
  have hindex := h.balanced.index role
  rw [hnone, Nat.add_zero, Nat.mod_eq_of_lt (h.balanced.bound role)] at hindex
  exact hindex

/-- The items and the processes that may move one are no more than the semaphores allow. -/
theorem Invariant.bounds (h : Invariant names s) :
    s.removed.length + s.number (Worker.paid .consumer) ≤ s.inserted.length ∧
      s.inserted.length + s.number (Worker.paid .producer) ≤ s.removed.length + bufferSize := by
  obtain ⟨-, hfull, hempty⟩ := h.equipped.permits
  have hconsumer := h.balanced.paid .consumer
  have hproducer := h.balanced.paid .producer
  have hfilled := h.balanced.owed .producer
  have hemptied := h.balanced.owed .consumer
  simp only [State.awaited, State.posted, State.moved] at *
  omega

/-- `buffer[w] = c`. -/
theorem Invariant.insert (h : Invariant names s) (hx : s.workers s.machine.pid = some x)
    (hplace : x.place = .access) (hrole : x.role = .producer) :
    Invariant names (s.access x) := by
  have hopened := h.staffed.opened _ x hx
  simp only [Worker.Opened, hplace] at hopened
  obtain ⟨hle, hroom⟩ := h.bounds
  have hpaid : 0 < s.number (Worker.paid .producer) :=
    h.staffed.number_pos hx (by simp [Worker.paid, hplace, hrole])
  have hw : s.w = s.inserted.length % bufferSize := h.index_eq hx hplace .producer
  simp only [State.access, hrole]
  have hopened' : Worker.Opened s { x with role := .producer, place := .advance } := hopened
  refine h.of_statement hx (by simp [State.waitsFor, hplace]) hopened' rfl rfl rfl rfl rfl rfl
    (fun role => ?_) (fun role => ?_) ?_ h.balanced.bound (fun role => ?_) ?_
  · cases role <;> simp [State.moved, State.setWorker, Worker.paid, hplace, hrole]
  · cases role <;> simp [State.moved, State.setWorker, Worker.owes, hplace, hrole]
  · simp [Worker.inside, hplace]
  · cases role <;>
      simp [State.moved, State.index, State.setWorker, Worker.moving, hplace, hrole, Nat.add_assoc,
        Nat.add_comm 1]
  · have hitems : Ordered s := h.ordered
    have hsucc : (s.inserted ++ [char x.item]).length - s.removed.length =
        s.inserted.length - s.removed.length + 1 := by
      rw [List.length_append, List.length_singleton]
      omega
    have hcell : s.w = (s.removed.length + (s.inserted.length - s.removed.length)) %
        bufferSize := by
      rw [hw, Nat.add_sub_cancel' (by omega)]
    change s.removed ++ ringContents bufferSize (fun i => if i = s.w then _ else _)
      s.removed.length ((s.inserted ++ [char x.item]).length - s.removed.length) = _
    rw [hsucc, hcell, ringContents_store (by omega), ← List.append_assoc, hitems]

/-- `result = buffer[r]`. -/
theorem Invariant.remove (h : Invariant names s) (hx : s.workers s.machine.pid = some x)
    (hplace : x.place = .access) (hrole : x.role = .consumer) :
    Invariant names (s.access x) := by
  have hopened := h.staffed.opened _ x hx
  simp only [Worker.Opened, hplace] at hopened
  obtain ⟨hle, -⟩ := h.bounds
  have hpaid : 0 < s.number (Worker.paid .consumer) :=
    h.staffed.number_pos hx (by simp [Worker.paid, hplace, hrole])
  have hr : s.r = s.removed.length % bufferSize := h.index_eq hx hplace .consumer
  simp only [State.access, hrole]
  have hopened' : Worker.Opened s
    { x with role := .consumer, item := s.buffer s.r, place := .advance } := hopened
  refine h.of_statement hx (by simp [State.waitsFor, hplace]) hopened' rfl rfl rfl rfl rfl rfl
    (fun role => ?_) (fun role => ?_) ?_ h.balanced.bound (fun role => ?_) ?_
  · cases role <;> simp [State.moved, State.setWorker, Worker.paid, hplace, hrole]
  · cases role <;> simp [State.moved, State.setWorker, Worker.owes, hplace, hrole]
  · simp [Worker.inside, hplace]
  · cases role <;>
      simp [State.moved, State.index, State.setWorker, Worker.moving, hplace, hrole, Nat.add_assoc,
        Nat.add_comm 1]
  · have hitems : Ordered s := h.ordered
    have hlength : (s.removed ++ [s.buffer s.r]).length = s.removed.length + 1 := by simp
    have hsucc : s.inserted.length - s.removed.length =
        s.inserted.length - (s.removed.length + 1) + 1 := by omega
    unfold Ordered at hitems
    rw [hsucc, ringContents_cons, ← hr] at hitems
    change (s.removed ++ [s.buffer s.r]) ++ ringContents bufferSize s.buffer
      (s.removed ++ [s.buffer s.r]).length
      (s.inserted.length - (s.removed ++ [s.buffer s.r]).length) = s.inserted
    rw [hlength, List.append_assoc, List.singleton_append]
    exact hitems

/-- The increment of the index. -/
theorem Invariant.advance (h : Invariant names s) (hx : s.workers s.machine.pid = some x)
    (hplace : x.place = .advance) : Invariant names (s.advance x) := by
  have hopened := h.staffed.opened _ x hx
  simp only [Worker.Opened, hplace] at hopened
  have hlt : ∀ n, (n + 1) % bufferSize < bufferSize := fun n => Nat.mod_lt _ (by decide)
  have hbound := h.balanced.bound
  unfold State.advance
  cases hrole : x.role with
  | producer =>
    have hopened' : Worker.Opened s { x with role := .producer, place := .signalItem } := hopened
    refine h.of_statement hx (by simp [State.waitsFor, hplace]) hopened' rfl rfl rfl rfl rfl rfl
      (fun role => ?_) (fun role => ?_) ?_ (fun role => ?_) (fun role => ?_) h.ordered
    · cases role <;> simp [State.moved, State.setWorker, Worker.paid, hplace, hrole]
    · cases role <;> simp [State.moved, State.setWorker, Worker.owes, hplace, hrole]
    · simp [Worker.inside, hplace]
    · cases role with
      | producer => exact hlt s.w
      | consumer => exact hbound .consumer
    · cases role <;>
        simp [State.moved, State.index, State.setWorker, Worker.moving, hplace, hrole]
  | consumer =>
    have hopened' : Worker.Opened s { x with role := .consumer, place := .signalItem } := hopened
    refine h.of_statement hx (by simp [State.waitsFor, hplace]) hopened' rfl rfl rfl rfl rfl rfl
      (fun role => ?_) (fun role => ?_) ?_ (fun role => ?_) (fun role => ?_) h.ordered
    · cases role <;> simp [State.moved, State.setWorker, Worker.paid, hplace, hrole]
    · cases role <;> simp [State.moved, State.setWorker, Worker.owes, hplace, hrole]
    · simp [Worker.inside, hplace]
    · cases role with
      | producer => exact hbound .producer
      | consumer => exact hlt s.r
    · cases role <;>
        simp [State.moved, State.index, State.setWorker, Worker.moving, hplace, hrole]

/-! ### The events -/

theorem semOpen_eq {k : Kernel} {name : ℕ} {j : ℤ} (h : getSemIndex name k = some j) :
    semOpen name k = j := by rw [semOpen, h, Option.getD_some]

theorem Invariant.run (h : Invariant names s) (hx : s.workers s.machine.pid = some x)
    (hrun : s.run names garbage x = some t) : Invariant names t := by
  have hopened := h.staffed.opened _ x hx
  cases hplace : x.place with
  | openItem =>
    simp only [State.run, hplace] at hrun
    rw [← Option.some.inj hrun]
    refine h.of_local hx (by simp [State.waitsFor, hplace]) (by simp [Worker.outside, hplace])
      (by simp [Worker.outside]) ?_ s.i
    exact semOpen_eq h.equipped.itemMutex
  | openFull =>
    simp only [State.run, hplace] at hrun
    simp only [Worker.Opened, hplace] at hopened
    rw [← Option.some.inj hrun]
    refine h.of_local hx (by simp [State.waitsFor, hplace]) (by simp [Worker.outside, hplace])
      (by simp [Worker.outside]) ?_ s.i
    exact ⟨hopened, semOpen_eq h.equipped.fullCount⟩
  | openEmpty =>
    simp only [State.run, hplace] at hrun
    simp only [Worker.Opened, hplace] at hopened
    rw [← Option.some.inj hrun]
    refine h.of_local hx (by simp [State.waitsFor, hplace]) (by simp [Worker.outside, hplace])
      (by cases x.role <;> simp [Worker.outside, Role.head]) ?_ s.i
    have hempty := semOpen_eq h.equipped.emptyCount
    unfold Worker.Opened
    cases x.role with
    | producer => exact ⟨hopened.1, hopened.2, hempty⟩
    | consumer => exact ⟨hopened.1, hopened.2, hempty⟩
  | produce =>
    simp only [State.run, hplace] at hrun
    simp only [Worker.Opened, hplace] at hopened
    rw [← Option.some.inj hrun]
    refine h.of_local hx (by simp [State.waitsFor, hplace]) (by simp [Worker.outside, hplace])
      (by simp [Worker.outside]) ?_ s.i
    exact hopened
  | increment =>
    simp only [State.run, hplace] at hrun
    simp only [Worker.Opened, hplace] at hopened
    rw [← Option.some.inj hrun]
    refine h.of_local hx (by simp [State.waitsFor, hplace]) (by simp [Worker.outside, hplace])
      (by simp [Worker.outside]) ?_ _
    exact hopened
  | waitCount =>
    simp only [State.run, hplace] at hrun
    obtain ⟨m, hm, rfl⟩ := Option.map_eq_some_iff.mp hrun
    exact h.waitCount hx hplace hm
  | waitItem =>
    simp only [State.run, hplace] at hrun
    obtain ⟨m, hm, rfl⟩ := Option.map_eq_some_iff.mp hrun
    exact h.waitItem hx hplace hm
  | access =>
    simp only [State.run, hplace] at hrun
    rw [← Option.some.inj hrun]
    cases hrole : x.role with
    | producer => exact h.insert hx hplace hrole
    | consumer => exact h.remove hx hplace hrole
  | advance =>
    simp only [State.run, hplace] at hrun
    rw [← Option.some.inj hrun]
    exact h.advance hx hplace
  | signalItem =>
    simp only [State.run, hplace] at hrun
    obtain ⟨m, hm, rfl⟩ := Option.map_eq_some_iff.mp hrun
    exact h.signalItem hx hplace hm
  | signalCount =>
    simp only [State.run, hplace] at hrun
    obtain ⟨m, hm, rfl⟩ := Option.map_eq_some_iff.mp hrun
    exact h.signalCount hx hplace hm

/-- A step of the machine that is nothing to the processes of the program. -/
theorem Invariant.of_machine (h : Invariant names s) (hreach : machineSystem.Reachable m)
    (hsteady : Steady {j | j ∈ s.own} s.machine.pid s.machine m)
    (hpending : ∀ p x, s.workers p = some x → m.pending p = s.machine.pending p) :
    Invariant names { s with machine := m } := by
  have hitem : s.itemMutex ∈ s.own := by simp [State.own]
  have hown : ∀ role, s.awaited role ∈ s.own ∧ s.posted role ∈ s.own := fun role => by
    cases role <;> simp [State.awaited, State.posted, State.own]
  refine ⟨h.equipped.of_step hreach hsteady.names (fun j hj => hsteady.start hj) rfl rfl rfl,
    ⟨h.staffed.nodup, h.staffed.member, fun p hp => (h.staffed.range p hp).trans_le hsteady.count,
      h.staffed.opened, fun p x c hx hc => ?_⟩,
    ⟨fun role => ?_, fun role => ?_, ?_, h.balanced.bound, h.balanced.index⟩, h.ordered⟩
  · have hc : m.pending p = some c := hc
    rw [hpending p x hx] at hc
    obtain ⟨j, hj, hwaits⟩ := h.staffed.suspended p x c hx hc
    exact ⟨j, hj, waitsAt_congr (hsteady.generation (s.waitsFor_mem hj)) hwaits⟩
  · exact (hsteady.returned (hown role).1).trans (h.balanced.paid role)
  · change _ = m.ledger.signals (s.posted role) + _
    rw [hsteady.signals (hown role).2]
    exact h.balanced.owed role
  · change m.ledger.returned s.itemMutex = m.ledger.signals s.itemMutex + _
    rw [hsteady.returned hitem, hsteady.signals hitem]
    exact h.balanced.inside

theorem Invariant.other (h : Invariant names s) {action : Action}
    (hpermits : s.permits action = true) (hrun : Sync.step s.machine action = some m) :
    Invariant names { s with machine := m } := by
  have hreach := h.equipped.machine.next hrun
  have hsettled := h.equipped.settled
  have hother : ((s.workers s.machine.pid).isNone && action.foreign s.own s.machine) = true →
      Invariant names { s with machine := m } := fun hguard => by
    obtain ⟨hnone, hforeign⟩ := Bool.and_eq_true_iff.mp hguard
    have hsteady := step_steady hsettled hforeign hrun
    refine h.of_machine hreach hsteady fun p x hx => hsteady.pending p ?_
    rintro rfl
    simp [hx] at hnone
  cases action with
  | tick =>
    refine h.of_machine hreach (step_steady hsettled rfl hrun) fun p x _ => ?_
    simp only [Sync.step] at hrun
    split_ifs at hrun
    obtain ⟨k', -, rfl⟩ := Option.map_eq_some_iff.mp hrun
    rfl
  | _ => exact hother hpermits

/-- A new process starts at the first statement. -/
theorem Invariant.createProcess (h : Invariant names s) {role : Role} {page : ℕ}
    (hnone : s.workers s.machine.pid = none) (hrun : s.createProcess role page = some t) :
    Invariant names t := by
  obtain ⟨m, hm, rfl⟩ := Option.map_eq_some_iff.mp hrun
  have hsettled := h.equipped.settled
  have hsteady : Steady {j | j ∈ s.own} s.machine.pid s.machine m := step_steady hsettled rfl hm
  have hbase := h.of_machine (h.equipped.machine.next hm) hsteady fun p x hx =>
    hsteady.pending p (by rintro rfl; simp [hx] at hnone)
  simp only [Sync.step] at hm
  split_ifs at hm with hguard
  obtain rfl := Option.some.inj hm
  set p := s.machine.kernel.sched.pid with hp
  have hnew : p ∉ s.started := fun hmem => lt_irrefl _ (h.staffed.range p hmem)
  have hpending : s.machine.pending p = none := by
    cases hc : s.machine.pending p with
    | none => rfl
    | some c => exact absurd (hsettled.parked.range p c hc).2 (lt_irrefl _)
  have hcount : (s.machine.createProcess page).kernel.sched.pid = p + 1 :=
    pid_createProcess hsettled.parked.ring hguard.2
  set x : Worker := ⟨role, .openItem, 0, 0, 0, 0⟩
  have hnumber : ∀ q : Worker → Bool, q x = false →
      census (p :: s.started) (Function.update s.workers p (some x)) (fun o => o.any q) =
        s.number q := fun q hq => by
    rw [census_cons_update hnew]
    simp [hq, State.number]
  have hworker : ∀ q y, Function.update s.workers p (some x) q = some y →
      (q = p ∧ y = x) ∨ s.workers q = some y := fun q y hy => by
    by_cases hq : q = p
    · subst hq
      rw [Function.update_self] at hy
      exact Or.inl ⟨rfl, (Option.some.inj hy).symm⟩
    · rw [Function.update_of_ne hq] at hy
      exact Or.inr hy
  have hout := Worker.outside_counts (x := x) (by simp [Worker.outside, x])
  refine ⟨hbase.equipped.of_step hbase.equipped.machine (SameNames.refl _) (fun _ _ => rfl)
      rfl rfl rfl,
    ⟨List.nodup_cons.mpr ⟨hnew, h.staffed.nodup⟩, fun q y hy => ?_, fun q hq => ?_,
      fun q y hy => ?_, fun q y c hy hc => ?_⟩,
    ⟨fun role => ?_, fun role => ?_, ?_, hbase.balanced.bound, fun role => ?_⟩, hbase.ordered⟩
  · rcases hworker q y hy with ⟨rfl, -⟩ | hy
    · exact List.mem_cons_self
    · exact List.mem_cons_of_mem _ (h.staffed.member q y hy)
  · change q < (s.machine.createProcess page).kernel.sched.pid
    rw [hcount]
    rcases List.mem_cons.mp hq with rfl | hq
    · exact lt_add_one p
    · exact (h.staffed.range q hq).trans (lt_add_one p)
  · rcases hworker q y hy with ⟨-, rfl⟩ | hy
    · trivial
    · exact h.staffed.opened q y hy
  · rcases hworker q y hy with ⟨rfl, -⟩ | hy
    · exact absurd (hpending.symm.trans hc) (by simp)
    · exact hbase.staffed.suspended q y c hy hc
  · exact (hbase.balanced.paid role).trans (congrArg _ (hnumber _ (hout role).1).symm)
  · exact (hbase.balanced.owed role).trans (congrArg _ (hnumber _ (hout role).2.1).symm)
  · exact hbase.balanced.inside.trans (congrArg _ (hnumber _ (hout .producer).2.2.2).symm)
  · have hsame := hnumber _ (hout role).2.2.1
    exact (congrArg (fun n => (s.index role + n) % bufferSize) hsame).trans
      (hbase.balanced.index role)

theorem step_invariant {e : Event} (h : Invariant names s) (hstep : step names s e = some t) :
    Invariant names t := by
  cases e with
  | run garbage =>
    obtain ⟨x, hx, hrun⟩ := Option.bind_eq_some_iff.mp hstep
    exact h.run hx hrun
  | createProcess role page =>
    simp only [step] at hstep
    split_ifs at hstep with hnone
    exact h.createProcess (Option.isNone_iff_eq_none.mp hnone) hstep
  | other action =>
    simp only [step] at hstep
    split_ifs at hstep with hpermits
    obtain ⟨m, hm, rfl⟩ := Option.map_eq_some_iff.mp hstep
    exact h.other hpermits hm

/-- A semaphore that nobody has used yet has let nobody through. -/
theorem FreshSemaphore.returned {name : ℕ} {j start : ℤ} (h : FreshSemaphore m name j start)
    (hreach : machineSystem.Reachable m) : m.ledger.returned j = 0 := by
  obtain ⟨sleepers, owed, hj⟩ := reachable_permitInvariant hreach j
  have hwaits := hj.waits
  have hnone := h.waits
  simp only [Ledger.account] at hwaits
  omega

theorem IsStart.invariant (h : IsStart names s) : Invariant names s := by
  obtain ⟨hmachine, hitem, hfull, hempty, hworkers, hstarted, ⟨hw, hr⟩, hinserted, hremoved⟩ := h
  have hnumber : ∀ q, s.number q = 0 := fun q => by
    rw [State.number, hstarted]
    rfl
  have hnone : ∀ p x, s.workers p ≠ some x := fun p x hx => by simp [hworkers] at hx
  refine ⟨⟨hmachine, hitem.index, hfull.index, hempty.index, hitem.start, hfull.start,
      hempty.start⟩,
    ⟨by rw [hstarted]; exact List.nodup_nil, fun p x hx => absurd hx (hnone p x),
      fun p hp => by simp [hstarted] at hp, fun p x hx => absurd hx (hnone p x),
      fun p x c hx => absurd hx (hnone p x)⟩,
    ⟨fun role => ?_, fun role => ?_, ?_, fun role => ?_, fun role => ?_⟩, ?_⟩
  · rw [hnumber]
    cases role with
    | producer => simp [State.awaited, State.moved, hinserted, hempty.returned hmachine]
    | consumer => simp [State.awaited, State.moved, hremoved, hfull.returned hmachine]
  · rw [hnumber]
    cases role with
    | producer => simp [State.posted, State.moved, hinserted, hfull.signals]
    | consumer => simp [State.posted, State.moved, hremoved, hempty.signals]
  · rw [hnumber, hitem.returned hmachine, hitem.signals]
  · cases role <;> simp [State.index, hw, hr, bufferSize]
  · rw [hnumber]
    cases role <;> simp [State.index, State.moved, hw, hr, hinserted, hremoved]
  · simp [Ordered, hinserted, hremoved, ringContents]

theorem reachable_invariant (h : (system names).Reachable s) : Invariant names s :=
  System.Reachable.invariant (I := Invariant names) (fun _ hs => IsStart.invariant hs)
    (fun _ _ _ hs hstep => step_invariant hs hstep) h

/-! ### The result -/

/-- The process is between its `wait` and its `signal` on `itemMutex`. -/
def State.AtBuffer (s : State) (p : ℤ) : Prop := ∃ x, s.workers p = some x ∧ x.inside = true

/-- The items in the buffer that were not read yet. -/
def State.unread (s : State) (h : s.inserted.length ≤ s.removed.length + bufferSize) :
    BoundedQueue ℤ bufferSize :=
  ⟨ringContents bufferSize s.buffer s.removed.length (s.inserted.length - s.removed.length), by
    rw [ringContents_length]
    omega⟩

/-- At every moment of every run there are between 0 and `bufferSize` items in the buffer, at most
one process is at it, what was removed is the beginning of what was inserted, and the items
that follow are still in their cells. -/
theorem items_in_order (h : (system names).Reachable s) :
    s.removed.length ≤ s.inserted.length ∧ s.inserted.length ≤ s.removed.length + bufferSize ∧
      (∀ p q, s.AtBuffer p → s.AtBuffer q → p = q) ∧ s.removed <+: s.inserted ∧
      ∀ k, s.removed.length ≤ k → k < s.inserted.length →
        s.inserted[k]? = some (s.buffer (k % bufferSize)) := by
  have hinv := reachable_invariant h
  obtain ⟨hle, hroom⟩ := hinv.bounds
  have hordered : s.removed ++ ringContents bufferSize s.buffer s.removed.length
    (s.inserted.length - s.removed.length) = s.inserted := hinv.ordered
  have hfull : s.inserted.length ≤ s.removed.length + bufferSize := by omega
  have hfifo : (s.unread hfull).Fifo s.inserted s.removed := hordered
  refine ⟨by omega, hfull, fun p q hp hq => ?_, hfifo.isPrefix, fun k hk hlt => ?_⟩
  · obtain ⟨x, hx, hin⟩ := hp
    obtain ⟨y, hy, hin'⟩ := hq
    exact hinv.one_inside hx hin hy hin'
  · obtain ⟨i, rfl⟩ := Nat.exists_eq_add_of_le hk
    rw [← hordered, List.getElem?_append_right (by omega), Nat.add_sub_cancel_left, ringContents,
      List.getElem?_map, List.getElem?_range (by omega)]
    rfl

end

/-! ### A run -/

/-- The names of the semaphores are at the addresses 2, 3 and 4; the running process, which goes
on with `control`, has created them. -/
def preparedMachine : Machine :=
  (execute Sync.step bootedMachine (createProcesses 1 ++
    [.tick, .semCreate 2 1 0, .semCreate 3 0 0, .semCreate 4 bufferSize 0])).getD bootedMachine

def preparedState : State where
  machine := preparedMachine
  workers := fun _ => none
  started := []
  itemMutex := 0
  fullCount := 1
  emptyCount := 2
  i := 0
  buffer := fun _ => 0
  w := 0
  r := 0
  inserted := []
  removed := []

theorem isStart_preparedState : IsStart ⟨2, 3, 4⟩ preparedState := by
  have hreach : machineSystem.Reachable preparedMachine := by
    obtain ⟨m, hm⟩ := Option.isSome_iff_exists.mp (show (execute Sync.step bootedMachine
      (createProcesses 1 ++ [.tick, .semCreate 2 1 0, .semCreate 3 0 0,
        .semCreate 4 bufferSize 0])).isSome = true by decide +kernel)
    rw [preparedMachine, hm]
    exact reachable_of_execute IsBoot isBoot_bootedMachine hm
  refine ⟨hreach, ⟨?_, ?_, ?_, ?_⟩, ⟨?_, ?_, ?_, ?_⟩, ⟨?_, ?_, ?_, ?_⟩, fun _ => rfl, rfl,
    ⟨rfl, rfl⟩, ⟨rfl, rfl⟩⟩
  all_goals decide +kernel

/-- A consumer waits for an item; a producer, which is removed later, inserts two, and the consumer
is reading the first one. -/
theorem items_in_order_two : ∃ s, (system ⟨2, 3, 4⟩).Reachable s ∧ s.inserted = [0, 1] ∧
    s.removed = [0] ∧ s.removed.length ≤ s.inserted.length ∧
    s.inserted.length ≤ s.removed.length + bufferSize ∧
    (∀ p q, s.AtBuffer p → s.AtBuffer q → p = q) ∧ s.removed <+: s.inserted ∧
    ∀ k, s.removed.length ≤ k → k < s.inserted.length →
      s.inserted[k]? = some (s.buffer (k % bufferSize)) := by
  obtain ⟨s, hpath, hf⟩ := exists_path_of_execute (IsStart ⟨2, 3, 4⟩)
    (show (execute (step ⟨2, 3, 4⟩) preparedState
      ([.createProcess .producer (pageAt 5), .createProcess .consumer (pageAt 6), .other .tick] ++
        List.replicate 23 (.run 0) ++
        [.other .tick, .other .tick, .other .tick, .other (.removeProcess 3), .other .tick] ++
        List.replicate 3 (.run 0))).map (fun s : State => (s.inserted, s.removed)) =
      some ([0, 1], [0]) by decide +kernel)
  obtain ⟨hinserted, hremoved⟩ := Prod.mk.inj hf
  have hreach : (system ⟨2, 3, 4⟩).Reachable s :=
    hpath.reachable (System.Reachable.start isStart_preparedState)
  exact ⟨s, hreach, hinserted, hremoved, items_in_order hreach⟩

end GatOS.ProducerConsumer
