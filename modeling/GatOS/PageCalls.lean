import GatOS.HandOff
import GatOS.PageAllocator
import GatOS.QueuedMutexCalls

/-!
# Calls of the page allocators

Any number of processes calls `get_page`, `store_page`, `get_stack_page` and `store_stack_page`.
The calls of `mutex_lock` and `mutex_unlock` are whole calls; between them, and before and after the
statements that use the stack of pages, other processes can run.
-/
namespace GatOS.PageCalls
open HandOff PageAllocator QueuedMutex Scheduler Transition

/-- The functions with their arguments. -/
inductive Routine
  | getPage (size : ℕ)
  | storePage (address : ℕ)
  | getStackPage
  | storeStackPage (address : ℕ)

/-- What `mutex_open` returned for the two allocators. -/
structure Keys where
  memoryMutexKey : ℤ
  stackMemoryMutexKey : ℤ

def Routine.key (T : Keys) : Routine → ℤ
  | .getPage _ => T.memoryMutexKey
  | .storePage _ => T.memoryMutexKey
  | .getStackPage => T.stackMemoryMutexKey
  | .storeStackPage _ => T.stackMemoryMutexKey

/-- What comes next in a call: the statements that use the stack of pages, the last call on the
mutex, or the return. -/
inductive Place
  | body
  | exit (last : MutexCall) (result : ℕ)
  | ret (result : ℕ)
  deriving DecidableEq

/-- `locks` and `unlocks` count the calls on the mutex. -/
structure Call where
  routine : Routine
  place : Place
  locks : ℕ
  unlocks : ℕ

/-- `calls` are the calls that the processes are in, `returned` those that have come to an end. -/
structure State where
  machine : Machine
  pages : PageStack
  stackPages : PageStack
  calls : ℕ → Option Call
  returned : List Call

namespace State

def current (s : State) : ℕ := s.machine.sched.current

def goto (s : State) (c : Call) : State :=
  { s with calls := Function.update s.calls s.current (some c) }

end State

/-- What the statements between the two calls on the mutex do. -/
def Routine.run (s : State) : Routine → State × MutexCall × ℕ
  | .getPage size =>
    let e := PageAllocator.getPage size s.pages
    ({ s with pages := e.stack }, e.last, e.result)
  | .storePage address =>
    let e := PageAllocator.storePage address s.pages
    ({ s with pages := e.stack }, e.last, e.result)
  | .getStackPage =>
    let e := PageAllocator.getStackPage s.stackPages
    ({ s with stackPages := e.stack }, e.last, e.result)
  | .storeStackPage address =>
    let e := PageAllocator.storeStackPage address s.stackPages
    ({ s with stackPages := e.stack }, e.last, e.result)

/-- The running process goes on with its call. `node` is what `allocPage` returns when the process
is put in a queue. -/
def runCall (T : Keys) (node : ℕ) (s : State) (c : Call) : Option State :=
  match c.place with
  | .body =>
    let (s, last, result) := c.routine.run s
    some (s.goto { c with place := .exit last result })
  | .exit .mutexLock result =>
    (mutexLock (c.routine.key T) node s.machine).map fun (_, m) =>
      { s.goto { c with place := .ret result, locks := c.locks + 1 } with machine := m }
  | .exit .mutexUnlock result =>
    (mutexUnlock (c.routine.key T) s.machine).map fun u =>
      { s.goto { c with place := .ret result, unlocks := c.unlocks + 1 } with machine := u.after }
  | .ret _ =>
    some { s with
      calls := Function.update s.calls s.current none
      returned := c :: s.returned }

inductive Event
  | call (routine : Routine) (node : ℕ)
  | run (node : ℕ)
  | tick
  | createProcess (page : ℕ)

def step (T : Keys) (s : State) : Event → Option State
  | .call routine node =>
    if (s.calls s.current).isNone then
      (mutexLock (routine.key T) node s.machine).map fun (_, m) =>
        { s.goto ⟨routine, .body, 1, 0⟩ with machine := m }
    else none
  | .run node => (s.calls s.current).bind (runCall T node s)
  | .tick => s.machine.yield.map fun m => { s with machine := m }
  | .createProcess page =>
    if FreshPage s.machine.sched page then
      some { s with machine :=
        { s.machine with sched := (Scheduler.createProcess page s.machine.sched).2 } }
    else none

/-- The mutexes have been opened, and nobody has called yet. The stacks of pages are arbitrary. -/
def IsStart (T : Keys) (s : State) : Prop :=
  IsFresh ⟨s.machine, fun _ => none⟩ ∧ (∀ r : Routine, isOpen (r.key T) s.machine) ∧
    (∀ a, s.calls a = none) ∧ s.returned = []

def system (T : Keys) : System State Event := ofStep (IsStart T) (step T)

/-! ### The result -/

/-- The process has called `mutex_lock` and is on its way to `mutex_unlock`. -/
def Call.Inside (T : Keys) (key : ℤ) (c : Call) : Prop :=
  c.routine.key T = key ∧ (c.place = .body ∨ ∃ result, c.place = .exit .mutexUnlock result)

def Inside (T : Keys) (s : State) (key : ℤ) (p : ℕ) : Prop :=
  ∃ c, s.calls p = some c ∧ c.Inside T key

/-- There is a page to get, or a place to store one. -/
def Routine.Possible (s : State) : Routine → Prop
  | .getPage _ => s.pages.index < stackSize
  | .storePage _ => 0 < s.pages.index
  | .getStackPage => s.stackPages.index < maxProcesses
  | .storeStackPage _ => 0 < s.stackPages.index

/-- Each call has locked its mutex once and unlocked it, whether it succeeded or not. A mutex is
locked only while a process is inside that can go on; when nobody is, a call is not blocked. -/
structure Balanced (T : Keys) (s : State) : Prop where
  once : ∀ c ∈ s.returned, c.locks = 1 ∧ c.unlocks = 1
  held : ∀ r : Routine, (s.machine.openMutexes (r.key T)).locked = locked →
    ∃ p ∈ ring s.machine.sched, Inside T s (r.key T) p ∧ ¬ BlockedSlot s.machine.sched p
  alone : ∀ (r : Routine) p q, Inside T s (r.key T) p → Inside T s (r.key T) q →
    ¬ BlockedSlot s.machine.sched p → ¬ BlockedSlot s.machine.sched q → p = q
  next : ∀ r : Routine, (∀ p, ¬ Inside T s (r.key T) p) → ∀ node,
    ∃ m, mutexLock (r.key T) node s.machine = some (1, m) ∧ m.sched = s.machine.sched
  failed : ∀ r : Routine, ¬ r.Possible s → (r.run s).1 = s ∧ (r.run s).2.2 = 0
  released : ∀ c last result, s.calls s.current = some c → c.place = .exit last result →
    ¬ Dead s.machine null → ∀ node, ∃ t, step T s (.run node) = some t ∧
      t.calls s.current = some { c with place := .ret result, unlocks := 1 } ∧ c.locks = 1

/-- `get_page` finds a page. The other functions may find none. -/
def Routine.Supplied (s : State) : Routine → Prop
  | .getPage _ => s.pages.index < stackSize
  | _ => True

instance (s : State) (r : Routine) : Decidable (r.Supplied s) :=
  match r with
  | .getPage _ => inferInstanceAs (Decidable (_ < _))
  | .storePage _ => inferInstanceAs (Decidable True)
  | .getStackPage => inferInstanceAs (Decidable True)
  | .storeStackPage _ => inferInstanceAs (Decidable True)

/-- The process that goes on does not call `get_page` when there is no page. -/
def Event.Supplied (s : State) : Event → Prop
  | .run _ => ∀ c ∈ s.calls s.current, c.place = .body → c.routine.Supplied s
  | _ => True

instance (s : State) (e : Event) : Decidable (e.Supplied s) :=
  match e with
  | .run _ => inferInstanceAs (Decidable (∀ c ∈ s.calls s.current, _ → _))
  | .call _ _ => inferInstanceAs (Decidable True)
  | .tick => inferInstanceAs (Decidable True)
  | .createProcess _ => inferInstanceAs (Decidable True)

/-! ### The invariant -/

/-- How often a call has locked and unlocked the mutex at each place. -/
def Call.Counted (c : Call) : Prop :=
  c.locks = 1 ∧ match c.place with
    | .body => c.unlocks = 0
    | .exit last _ => last = .mutexUnlock ∧ c.unlocks = 0
    | .ret _ => c.unlocks = 1

/-- The mutex is open and somebody holds it. -/
def Taken (m : Machine) (key : ℤ) : Prop := isOpen key m ∧ (m.openMutexes key).locked = locked

structure Invariant (T : Keys) (s : State) : Prop where
  isRing : RingInvariant s.machine.sched
  isOpen : ∀ r : Routine, isOpen (r.key T) s.machine
  inRing : ∀ p, s.calls p ≠ none → p ∈ ring s.machine.sched
  awake : ¬ BlockedSlot s.machine.sched s.current
  counted : ∀ p c, s.calls p = some c → c.Counted
  once : ∀ c ∈ s.returned, c.locks = 1 ∧ c.unlocks = 1
  handed : HandedOver (Inside T s) (fun key => s.machine.waiting key) (Taken s.machine)
    (BlockedSlot s.machine.sched)

section

variable {T : Keys} {s t : State} {m : Machine} {c d : Call} {node : ℕ}

theorem inside_goto (hc : s.calls s.current = some c) (hinside : ∀ key, d.Inside T key ↔
    c.Inside T key) (key : ℤ) (p : ℕ) : Inside T (s.goto d) key p ↔ Inside T s key p := by
  unfold Inside State.goto
  by_cases hp : p = s.current
  · subst hp
    simp [hc, hinside]
  · simp [hp]

/-- The call of the running process is not on its way to `mutex_unlock` any more. -/
theorem inside_leave (hc : ∀ key, ¬ d.Inside T key) (key : ℤ) (p : ℕ) :
    Inside T (s.goto d) key p ↔ Inside T s key p ∧ p ≠ s.current := by
  unfold Inside State.goto
  by_cases hp : p = s.current
  · subst hp
    simp [hc]
  · simp [hp]

theorem inside_enter (hc : s.calls s.current = none) (r : Routine) (key : ℤ) (p : ℕ) :
    Inside T (s.goto ⟨r, .body, 1, 0⟩) key p ↔
      Inside T s key p ∨ (key = r.key T ∧ p = s.current) := by
  unfold Inside State.goto
  by_cases hp : p = s.current
  · subst hp
    simp [hc, Call.Inside, eq_comm]
  · simp [hp]

theorem Counted.of_update (h : ∀ p c, s.calls p = some c → c.Counted) (hc : d.Counted) (p : ℕ)
    (c : Call) (hp : (s.goto d).calls p = some c) : c.Counted := by
  by_cases hcur : p = s.current
  · obtain rfl : d = c := by simpa [State.goto, hcur] using hp
    exact hc
  · exact h p c (by simpa [State.goto, hcur] using hp)

theorem Invariant.inRing_goto (h : Invariant T s) (p : ℕ) (hp : (s.goto d).calls p ≠ none) :
    p ∈ ring s.machine.sched := by
  by_cases hcur : p = s.current
  · rw [hcur]
    exact h.isRing.current_mem
  · exact h.inRing p (by simpa [State.goto, hcur] using hp)

theorem taken_iff {key lock : ℤ} {w : List ℕ} (h : Relocked key lock w s.machine m) (k : ℤ) :
    Taken m k ↔ QueuedMutex.isOpen k s.machine ∧
      (if k = key then lock = locked else (s.machine.openMutexes k).locked = locked) := by
  unfold Taken
  rw [h.isOpen_eq]
  split_ifs with hk
  · rw [hk, h.locked]
  · rw [h.other k hk]

theorem waiting_eq {key lock : ℤ} (h : Relocked key lock (s.machine.waiting key) s.machine m)
    (k : ℤ) : m.waiting k = s.machine.waiting k := by
  by_cases hk : k = key
  · rw [hk, h.waiting]
  · exact h.waiting_other hk

theorem Invariant.call (h : Invariant T s) {r : Routine} (ht : step T s (.call r node) = some t) :
    Invariant T t := by
  simp only [step] at ht
  split_ifs at ht with hnone
  have hc : s.calls s.current = none := by simpa using hnone
  obtain ⟨⟨result, m⟩, hm, rfl⟩ := Option.map_eq_some_iff.mp ht
  have hopen := h.isOpen r
  have houtside : ∀ key, ¬ Inside T s key s.current := by
    rintro key ⟨c, hc', -⟩
    rw [hc] at hc'
    cases hc'
  have hcounted := Counted.of_update h.counted (d := ⟨r, .body, 1, 0⟩) ⟨rfl, rfl⟩
  by_cases hfree : (s.machine.openMutexes (r.key T)).locked = locked
  · obtain ⟨hring, hmem, hblocked, hawake, w, hw, hrelocked⟩ :=
      mutexLock_wait h.isRing hopen hfree hm
    refine ⟨hring, fun r' => (hrelocked.isOpen_eq _).trans (h.isOpen r'), fun p hp =>
      (hmem p).mpr (h.inRing_goto p hp), hawake, hcounted, h.once, ?_⟩
    refine h.handed.enter_taken houtside h.awake ⟨hopen, hfree⟩ (inside_enter hc r) ?_
      (fun k hk => hrelocked.waiting_other hk) hblocked |>.congr (fun _ _ => Iff.rfl)
      (fun _ => rfl) (fun k => ?_) fun _ => Iff.rfl
    · simp only [hrelocked.waiting]
      exact hw
    · rw [taken_iff hrelocked, Taken]
      split_ifs with hk
      · simp [hk, hfree]
      · exact Iff.rfl
  · obtain ⟨m', hm', hsched, hrelocked⟩ := mutexLock_enter hopen hfree node
    obtain ⟨-, rfl⟩ : 1 = result ∧ m' = m := by simpa [hm'] using hm
    refine ⟨hsched ▸ h.isRing, fun r' => (hrelocked.isOpen_eq _).trans (h.isOpen r'),
      fun p hp => hsched ▸ h.inRing_goto p hp, ?_, hcounted, h.once, ?_⟩
    · simp only [State.current, hsched]
      exact h.awake
    · have hnot : ¬ Taken s.machine (r.key T) := fun hk => hfree hk.2
      refine (h.handed.enter_free houtside h.awake hnot (inside_enter hc r) (l := Taken m')
        fun k => ?_).congr (fun _ _ => Iff.rfl) (fun k => ?_) (fun _ => Iff.rfl)
        fun p => by rw [hsched]
      · rw [taken_iff hrelocked, Taken]
        split_ifs with hk
        · simp [hk, hopen]
        · simp [hk]
      · exact waiting_eq hrelocked k

theorem run_eq (r : Routine) : (r.run s).1.machine = s.machine ∧ (r.run s).1.calls = s.calls ∧
    (r.run s).1.returned = s.returned := by
  cases r <;> exact ⟨rfl, rfl, rfl⟩

/-- Only a function that finds no page locks the mutex again. -/
theorem run_last (r : Routine) (hok : r.Supplied s) :
    (r.run s).2.1 = .mutexUnlock := by
  cases r with
  | getPage size =>
    simp only [Routine.run, getPage, Layout.get_found (l := dataPages) .mutexLock hok]
  | storePage address =>
    simp only [Routine.run, storePage, Layout.store]
    split_ifs <;> rfl
  | getStackPage =>
    simp only [Routine.run, getStackPage, Layout.get]
    split_ifs <;> rfl
  | storeStackPage address =>
    simp only [Routine.run, storeStackPage, Layout.store]
    split_ifs <;> rfl

theorem Invariant.body (h : Invariant T s) (hc : s.calls s.current = some c)
    (hplace : c.place = .body) (hok : c.routine.Supplied s)
    (ht : runCall T node s c = some t) : Invariant T t := by
  obtain ⟨hmachine, hcalls, hreturned⟩ := run_eq (s := s) c.routine
  have hlast := run_last (s := s) c.routine hok
  simp only [runCall, hplace] at ht
  rw [← Option.some.inj ht]
  generalize c.routine.run s = result at hmachine hcalls hreturned hlast ⊢
  obtain ⟨⟨machine, pages, stackPages, calls, returned⟩, last, value⟩ := result
  obtain ⟨rfl, rfl, rfl, rfl⟩ : machine = s.machine ∧ calls = s.calls ∧ returned = s.returned ∧
    last = .mutexUnlock := ⟨hmachine, hcalls, hreturned, hlast⟩
  have hcounted := h.counted s.current c hc
  simp only [Call.Counted, hplace] at hcounted
  refine ⟨h.isRing, h.isOpen, fun p hp => h.inRing_goto p hp, h.awake,
    Counted.of_update h.counted ⟨hcounted.1, rfl, hcounted.2⟩, h.once, ?_⟩
  refine h.handed.congr (inside_goto (d := { c with place := .exit .mutexUnlock value }) hc
    fun key => ?_) (fun _ => rfl) (fun _ => Iff.rfl) fun _ => Iff.rfl
  simp [Call.Inside, hplace]

theorem Invariant.unlock (h : Invariant T s) (hc : s.calls s.current = some c) {value : ℕ}
    (hplace : c.place = .exit .mutexUnlock value) (ht : runCall T node s c = some t) :
    Invariant T t := by
  have hopen := h.isOpen c.routine
  have hin : Inside T s (c.routine.key T) s.current := ⟨c, hc, rfl, Or.inr ⟨value, hplace⟩⟩
  have hcounted := h.counted s.current c hc
  simp only [Call.Counted, hplace] at hcounted
  simp only [runCall, hplace] at ht
  obtain ⟨u, hu, rfl⟩ := Option.map_eq_some_iff.mp ht
  set d : Call := { c with place := .ret value, unlocks := c.unlocks + 1 } with hc'
  have hleave := inside_leave (T := T) (s := s) (d := d) fun key => by simp [hc', Call.Inside]
  have hcalls := Counted.of_update h.counted (s := s) (d := d)
    ⟨hcounted.1, by simp [hc', hcounted.2]⟩
  cases hw : s.machine.waiting (c.routine.key T) with
  | nil =>
    obtain ⟨hsched, hrelocked⟩ := mutexUnlock_nobody hopen hw hu
    refine ⟨hsched ▸ h.isRing, fun r => (hrelocked.isOpen_eq _).trans (h.isOpen r),
      fun p hp => hsched ▸ h.inRing_goto p hp, ?_, hcalls, h.once, ?_⟩
    · simp only [State.current, hsched]
      exact h.awake
    · rw [← hw] at hrelocked
      refine (h.handed.leave_free hin h.awake hleave (l := Taken u.after) fun k => ?_).congr
        (fun _ _ => Iff.rfl) (fun k => waiting_eq hrelocked k) (fun _ => Iff.rfl)
        fun p => by rw [hsched]
      rw [taken_iff hrelocked, Taken]
      split_ifs with hk
      · simp [hk, locked, unlocked]
      · simp [hk]
  | cons p rest =>
    obtain ⟨hbp, hp⟩ := h.handed.queued (c.routine.key T) p (by simp [hw])
    obtain ⟨hring, hmem, hcurrent, hblocked, hrelocked⟩ :=
      mutexUnlock_wake h.isRing hopen hw hbp hu
    refine ⟨hring, fun r => (hrelocked.isOpen_eq _).trans (h.isOpen r),
      fun a ha => (hmem a).mpr (h.inRing_goto a ha), ?_, hcalls, h.once, ?_⟩
    · simp only [State.current, hcurrent]
      exact fun hb => h.awake ((hblocked _).mp hb).1
    · refine (h.handed.leave_handOff hin h.awake hw hleave hrelocked.waiting
        (fun k hk => hrelocked.waiting_other hk) hblocked).congr (fun _ _ => Iff.rfl)
        (fun _ => rfl) (fun k => ?_) fun _ => Iff.rfl
      have htaken : (s.machine.openMutexes (c.routine.key T)).locked = locked := by
        by_contra hfree
        exact h.awake (h.handed.free _ _ (fun hk => hfree hk.2) hin)
      rw [taken_iff hrelocked, Taken]
      split_ifs with hk
      · simp [hk, htaken]
      · exact Iff.rfl

theorem Invariant.ret (h : Invariant T s) (hc : s.calls s.current = some c) {value : ℕ}
    (hplace : c.place = .ret value) (ht : runCall T node s c = some t) : Invariant T t := by
  have hcounted := h.counted s.current c hc
  simp only [Call.Counted, hplace] at hcounted
  simp only [runCall, hplace] at ht
  rw [← Option.some.inj ht]
  have hold : ∀ p, p ≠ s.current → Function.update s.calls s.current none p = s.calls p :=
    fun p hp => Function.update_of_ne hp _ _
  refine ⟨h.isRing, h.isOpen, fun p hp => ?_, h.awake, fun p d hp => ?_, fun d hmem => ?_, ?_⟩
  · by_cases hcur : p = s.current
    · rw [hcur]
      exact h.isRing.current_mem
    · exact h.inRing p (by simpa [hold p hcur] using hp)
  · by_cases hcur : p = s.current
    · simp [hcur] at hp
    · exact h.counted p d (by simpa [hold p hcur] using hp)
  · rcases List.mem_cons.mp hmem with rfl | hmem
    · exact hcounted
    · exact h.once d hmem
  · refine h.handed.congr (fun key p => ?_) (fun _ => rfl) (fun _ => Iff.rfl) fun _ => Iff.rfl
    unfold Inside
    by_cases hcur : p = s.current
    · subst hcur
      simp [hc, Call.Inside, hplace]
    · simp [hold p hcur]

theorem Invariant.tick (h : Invariant T s) (ht : step T s .tick = some t) : Invariant T t := by
  obtain ⟨m, hm, rfl⟩ := Option.map_eq_some_iff.mp ht
  obtain ⟨sched, rfl, hring, hmem, hblocked, hawake⟩ := switch_slots h.isRing hm
  exact ⟨hring, h.isOpen, fun p hp => hmem p (h.inRing p hp), hawake, h.counted, h.once,
    h.handed.congr (fun _ _ => Iff.rfl) (fun _ => rfl) (fun _ => Iff.rfl) hblocked⟩

theorem Invariant.createProcess (h : Invariant T s) {page : ℕ}
    (ht : step T s (.createProcess page) = some t) : Invariant T t := by
  simp only [step] at ht
  split_ifs at ht with hpage
  rw [← Option.some.inj ht]
  obtain ⟨hmem, hblocked⟩ := createProcess_slots h.isRing hpage
  have hcurrent := (createProcess_registers h.isRing.current_ne_null page).1
  refine ⟨(h.isRing.createProcess hpage).1, h.isOpen, fun p hp =>
    (hmem p).mpr (Or.inr (h.inRing p hp)), ?_, h.counted, h.once,
    h.handed.congr (fun _ _ => Iff.rfl) (fun _ => rfl) (fun _ => Iff.rfl) hblocked⟩
  simp only [State.current, hcurrent]
  exact fun hb => h.awake ((hblocked _).mp hb)

theorem Invariant.step (h : Invariant T s) {e : Event} (hok : e.Supplied s)
    (ht : PageCalls.step T s e = some t) : Invariant T t := by
  cases e with
  | call routine node => exact h.call ht
  | run node =>
    obtain ⟨c, hc, hrun⟩ := Option.bind_eq_some_iff.mp ht
    cases hplace : c.place with
    | body => exact h.body hc hplace (hok c hc hplace) hrun
    | exit last value =>
      have hcounted := h.counted s.current c hc
      simp only [Call.Counted, hplace] at hcounted
      obtain rfl := hcounted.2.1
      exact h.unlock hc hplace hrun
    | ret value => exact h.ret hc hplace hrun
  | tick => exact h.tick ht
  | createProcess page => exact h.createProcess ht

theorem invariant_start (hs : IsStart T s) : Invariant T s := by
  obtain ⟨hfresh, hopen, hnone, hreturned⟩ := hs
  obtain ⟨hring, hnotBlocked, hnobody⟩ := isFresh_quiet hfresh
  have hout : ∀ key p, ¬ Inside T s key p := by
    rintro key p ⟨c, hc, -⟩
    rw [hnone p] at hc
    cases hc
  have hnotTaken : ∀ key, ¬ Taken s.machine key := by
    rintro key ⟨hkey, hlock⟩
    rw [(hfresh.2.1 key).2 hkey] at hlock
    exact absurd hlock (by decide)
  refine ⟨hring, hopen, fun p hp => absurd (hnone p) hp, hnotBlocked _,
    fun p c hc => ?_, fun c hc => ?_, ⟨fun k _ p hp => absurd hp (hout k p), fun k p hp => ?_,
    fun k => ?_, fun k p _ hp => absurd hp (hout k p), fun k hk => absurd hk (hnotTaken k),
    fun k p _ hp => absurd hp (hout k p)⟩⟩
  · rw [hnone p] at hc
    cases hc
  · simp [hreturned] at hc
  · simp [hnobody k] at hp
  · simp [hnobody k]

theorem Invariant.released (h : Invariant T s) (hc : s.calls s.current = some c)
    {last : MutexCall} {value : ℕ} (hplace : c.place = .exit last value)
    (hnull : ¬ Dead s.machine null) (node : ℕ) : ∃ t, PageCalls.step T s (.run node) = some t ∧
      t.calls s.current = some { c with place := .ret value, unlocks := 1 } ∧ c.locks = 1 := by
  have hopen := h.isOpen c.routine
  have hcounted := h.counted s.current c hc
  simp only [Call.Counted, hplace] at hcounted
  obtain ⟨hlocks, rfl, hunlocks⟩ := hcounted
  have hends : ∃ u, mutexUnlock (c.routine.key T) s.machine = some u := by
    cases hw : s.machine.waiting (c.routine.key T) with
    | nil => exact Option.isSome_iff_exists.mp (mutexUnlock_nobody_isSome hopen hw hnull)
    | cons p rest =>
      obtain ⟨hbp, -⟩ := h.handed.queued (c.routine.key T) p (by simp [hw])
      have hne : p ≠ null := fun he => h.isRing.null_notMem (he ▸ hbp.1)
      have hdead : ¬ Dead s.machine p := fun hd => by simp [Dead, hbp.2] at hd
      obtain ⟨u, hu, -⟩ := mutexUnlock_first hopen hw hdead hne
      exact ⟨u, hu⟩
  obtain ⟨u, hu⟩ := hends
  have hrun : PageCalls.step T s (.run node) = some { s.goto
      { c with place := .ret value, unlocks := c.unlocks + 1 } with machine := u.after } := by
    simp only [PageCalls.step, hc, Option.bind_some, runCall, hplace, hu, Option.map_some]
  refine ⟨_, hrun, ?_, hlocks⟩
  simp [State.goto, hunlocks]

theorem run_failed (r : Routine) (hr : ¬ r.Possible s) : (r.run s).1 = s ∧ (r.run s).2.2 = 0 := by
  cases r with
  | getPage size =>
    simp only [Routine.run, getPage, Layout.get_none (l := dataPages) .mutexLock hr, and_self]
  | storePage address =>
    simp only [Routine.run, storePage, Layout.store_none address hr, and_self]
  | getStackPage =>
    simp only [Routine.run, getStackPage,
      Layout.get_none (l := PageAllocator.stackPages) .mutexUnlock hr, and_self]
  | storeStackPage address =>
    simp only [Routine.run, storeStackPage, Layout.store_none address hr, and_self]

theorem Invariant.balanced (h : Invariant T s) : Balanced T s := by
  refine ⟨h.once, fun r hr => ?_, fun r => h.handed.alone (r.key T), fun r hnone node => ?_,
    run_failed, fun c last value hc hplace hnull node => h.released hc hplace hnull node⟩
  · obtain ⟨p, hp, hb⟩ := h.handed.taken (r.key T) ⟨h.isOpen r, hr⟩
    have hcall : s.calls p ≠ none := by
      obtain ⟨c, hc, -⟩ := hp
      simp [hc]
    exact ⟨p, h.inRing p hcall, hp, hb⟩
  · have hfree : (s.machine.openMutexes (r.key T)).locked ≠ locked := by
      intro hr
      obtain ⟨p, hp, -⟩ := h.handed.taken (r.key T) ⟨h.isOpen r, hr⟩
      exact hnone p hp
    obtain ⟨m, hm, hsched, -⟩ := mutexLock_enter (h.isOpen r) hfree node
    exact ⟨m, hm, hsched⟩

/-- A process that finds no page keeps the mutex and is not on its way to unlock it. -/
theorem Invariant.not_balanced (h : Invariant T s) {e : Event} (hok : ¬ e.Supplied s)
    (ht : PageCalls.step T s e = some t) : ¬ Balanced T t := by
  cases e with
  | run node =>
    simp only [Event.Supplied, not_forall] at hok
    obtain ⟨c, hc, hplace, hfull⟩ := hok
    have hc : s.calls s.current = some c := hc
    obtain ⟨size, hroutine⟩ : ∃ size, c.routine = .getPage size := by
      cases hr : c.routine with
      | getPage size => exact ⟨size, rfl⟩
      | _ => exact absurd trivial (by rwa [hr] at hfull)
    rw [hroutine] at hfull
    have hin : Inside T s (c.routine.key T) s.current := ⟨c, hc, rfl, Or.inl hplace⟩
    have htaken : (s.machine.openMutexes (c.routine.key T)).locked = locked := by
      by_contra hfree
      exact h.awake (h.handed.free _ _ (fun hk => hfree hk.2) hin)
    have hbody : t = s.goto { c with place := .exit .mutexLock 0 } := by
      simp only [PageCalls.step, hc, Option.bind_some, runCall, hplace] at ht
      rw [hroutine] at ht
      simp only [Routine.run, getPage, Layout.get_none (l := dataPages) .mutexLock hfull] at ht
      rw [← Option.some.inj ht, hroutine]
    have hleave := inside_leave (T := T) (s := s) (d := { c with place := .exit .mutexLock 0 })
      fun key => by simp [Call.Inside]
    subst hbody
    intro hbalanced
    obtain ⟨p, -, hp, hb⟩ := hbalanced.held c.routine htaken
    obtain ⟨hp, hcur⟩ := (hleave _ _).mp hp
    exact hcur (h.handed.alone _ _ _ hp hin hb h.awake)
  | call routine node => exact absurd trivial hok
  | tick => exact absurd trivial hok
  | createProcess page => exact absurd trivial hok

/-- As long as nobody looks for a data page when there is none, the calls are balanced, and looking
for one then breaks it. -/
theorem balanced_while_supplied
    (h : ((system T).restrict fun s e => e.Supplied s).Reachable s) :
    Balanced T s ∧ ∀ e t, (system T).step s e t → (Balanced T t ↔ e.Supplied s) := by
  have hinv : Invariant T s := by
    refine h.invariant (I := Invariant T) (fun _ hs => invariant_start hs) ?_
    rintro s e t hinv ⟨hok, hstep⟩
    exact hinv.step hok hstep
  refine ⟨hinv.balanced, fun e t ht => ⟨fun hbalanced => ?_, fun hok =>
    (hinv.step hok ht).balanced⟩⟩
  by_contra hok
  exact hinv.not_balanced hok ht hbalanced

end

theorem isFresh_setMutex {m : Machine} {next : ℕ → Option Statement} (h : IsFresh ⟨m, next⟩)
    (key : ℤ) (name : List ℤ) (page : ℕ) :
    IsFresh ⟨m.setMutex key (createNewMutex name page), next⟩ := by
  obtain ⟨hstart, hfresh, hnone⟩ := h
  refine ⟨hstart, fun k => ?_, hnone⟩
  by_cases hk : k = key
  · subst hk
    refine ⟨?_, fun _ => by simp [Machine.setMutex, createNewMutex]⟩
    rw [waiting_setMutex, if_pos rfl]
    unfold createNewMutex createQueue
    split_ifs <;> rfl
  · obtain ⟨hw, hlock⟩ := hfresh k
    refine ⟨by rw [waiting_setMutex, if_neg hk]; exact hw, fun hopen => ?_⟩
    have hsame : (m.setMutex key (createNewMutex name page)).openMutexes k = m.openMutexes k :=
      Function.update_of_ne hk _ _
    simp only [hsame]
    exact hlock (by simpa [isOpen, hsame] using hopen)

def allocatorKeys : Keys := ⟨0, 1⟩

def twoMutexes : Machine := oneMutex.machine.setMutex 1 (createNewMutex [115] (pageAt 8))

/-- `pages` and `stackPages` are the places of the next elements. -/
def allocators (pages stackPages : ℕ) : State where
  machine := twoMutexes
  pages := ⟨initializeMemoryAllocator.pages, pages⟩
  stackPages := ⟨initializeStackMemoryAllocator.pages, stackPages⟩
  calls := fun _ => none
  returned := []

theorem isStart_allocators (pages stackPages : ℕ) :
    IsStart allocatorKeys (allocators pages stackPages) := by
  have hmemory : isOpen 0 twoMutexes := by decide +kernel
  have hstack : isOpen 1 twoMutexes := by decide +kernel
  refine ⟨isFresh_setMutex isFresh_oneMutex 1 [115] (pageAt 8), fun r => ?_, fun _ => rfl, rfl⟩
  cases r with
  | getPage size => exact hmemory
  | storePage address => exact hmemory
  | getStackPage => exact hstack
  | storeStackPage address => exact hstack

/-- A process waits for another one, which stores a page in an allocator that has all its pages. -/
theorem balanced_while_supplied_empty : ∃ s, s.machine.waiting 0 = [pageAt 1] ∧
    s.returned.length = 1 ∧ Balanced allocatorKeys s := by
  obtain ⟨s, hs, hview⟩ := reachable_restrict_of_execute (IsStart allocatorKeys)
    (isStart_allocators 0 128)
    (show (execute (guarded (fun s e => Event.Supplied s e) (step allocatorKeys)) (allocators 0 128)
      [.createProcess (pageAt 1), .createProcess (pageAt 2), .call .getStackPage 0, .run 0, .run 0,
        .run 0, .tick, .call (.storePage 0) 0, .tick, .call (.getPage 1) (pageAt 3)]).map
        (fun s : State => (s.machine.waiting 0, s.returned.length)) = some ([pageAt 1], 1) by
      decide +kernel)
  simp only [Prod.mk.injEq] at hview
  exact ⟨s, hview.1, hview.2, (balanced_while_supplied hs).1⟩

/-- A process that finds no page waits for itself, and the next one waits for it. -/
theorem waits_for_itself : ∃ s, (system allocatorKeys).Reachable s ∧
    (s.machine.openMutexes 0).locked = locked ∧ s.machine.waiting 0 = [pageAt 0, pageAt 2] ∧
    (∀ p ∈ ring s.machine.sched, (s.calls p).isSome → BlockedSlot s.machine.sched p) ∧
    ¬ Balanced allocatorKeys s := by
  obtain ⟨s, hpath, hview⟩ := exists_path_of_execute (IsStart allocatorKeys)
    (show (execute (step allocatorKeys) (allocators 255 0)
      [.createProcess (pageAt 1), .createProcess (pageAt 2), .call (.getPage 1) 0, .run 0,
        .run (pageAt 3), .call (.getPage 1) (pageAt 4)]).map (fun s : State =>
      ((s.machine.openMutexes 0).locked, s.machine.waiting 0, decide (∀ p ∈ ring s.machine.sched,
        (s.calls p).isSome → BlockedSlot s.machine.sched p))) =
      some (locked, [pageAt 0, pageAt 2], true) by decide +kernel)
  simp only [Prod.mk.injEq, decide_eq_true_eq] at hview
  obtain ⟨hlock, hw, hblocked⟩ := hview
  refine ⟨s, hpath.reachable (System.Reachable.start (isStart_allocators 255 0)), hlock, hw,
    hblocked, fun hbalanced => ?_⟩
  obtain ⟨p, hp, ⟨c, hc, -⟩, hawake⟩ := hbalanced.held (.getPage 1) hlock
  exact hawake (hblocked p hp (by simp [hc]))

end GatOS.PageCalls
