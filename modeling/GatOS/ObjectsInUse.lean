import GatOS.ObjectLifecycle
import GatOS.SemaphoreCreation
import GatOS.UserHandles

/-!
# Objects that stay in use

What a process can rely on from one of its calls to the next: a mutex or a semaphore that is in
use stays in use until its creator closes it. The results of `getMutex` and `semCreate`.
-/
namespace GatOS.Sync
open Scheduler Transition

namespace Element

def used (k : Kernel) : Element → Bool
  | .mutex i => (k.mutexes i).used
  | .semaphore j => (k.semaphores j).used

end Element

/-- The object that an operation takes out of use. -/
def Op.closed (s : Machine) : Op → Option Element
  | .close i => if s.pid = (s.kernel.mutexes i).pidCreator then some (.mutex i) else none
  | .closeSemaphore j =>
    if s.pid = (s.kernel.semaphores j).pidCreator then some (.semaphore j) else none
  | _ => none

def Action.closed (s : Machine) : Action → Option Element
  | .closeMutex i => (Op.close i).closed s
  | .semClose j => (Op.closeSemaphore j).closed s
  | _ => none

/-! ### The results -/

/-- The rest of a call that the running process carries out in this step, and the machine behind
the `lockMutex` before it. -/
def Machine.carriesOut (s : Machine) : Action → Option (Rest × Machine)
  | .getMutex name garbage =>
    (s.lock s.kernel.adminMutex garbage (.getMutex name)).bind fun r =>
      if r.1 then some (.getMutex name, r.2) else none
  | a => s.goesOn a

/-- What the call returns, unless it is suspended again. -/
def Rest.result (s : Machine) : Rest → Option ℤ
  | .getMutex name => (getMutexRest name s.kernel).map Prod.fst
  | rest => rest.semCreateResult s

def Machine.result (s : Machine) (a : Action) : Option ℤ :=
  (s.carriesOut a).bind fun r => r.1.result r.2

/-- Behind `lockMutex` the process runs on, with the tables as they were. -/
structure Behind (s u : Machine) : Prop where
  searches : SameSearches s.kernel u.kernel
  pid : u.pid = s.pid
  idle : u.idle = true
  generation : ∀ j, s.ledger.generation j ≤ u.ledger.generation j

/-- The call finds no slot, or the name of the semaphore in use. -/
def Rest.refused (k : Kernel) : Rest → Bool
  | .getMutex name => (getIndex name k).isNone && (getFreeSpot k).isNone
  | .semCreate name _ => (getSemIndex name k).isSome || (getFreePositionSemaphores k).isNone
  | _ => false

section

variable {k k' : Kernel} {s t u : Machine} {e : Element} {j p garbage : ℤ} {rest : Rest}

/-! ### Objects in use -/

theorem Element.used_congr (h : SlotsKept k k')
    (hsem : ∀ j, (k'.semaphores j).used = (k.semaphores j).used) (hused : e.used k = true) :
    e.used k' = true := by
  cases e with
  | mutex i => exact (h.slot i hused).1
  | semaphore j => exact (hsem j).trans hused

theorem createSemaphoreEnd_used {index : ℤ} {name : ℕ} {start pid : ℤ}
    (hrun : s.createSemaphoreEnd index name start pid = some t) (j : ℤ) :
    (t.kernel.semaphores j).used = (s.kernel.semaphores j).used := by
  obtain ⟨k', hk, rfl⟩ := Option.map_eq_some_iff.mp hrun
  obtain ⟨⟨i, k₁⟩, hget, hfree⟩ := Option.bind_eq_some_iff.mp hk
  show (k'.semaphores j).used = _
  rw [freeMutex_semaphores hfree, ← getMutexRest_semaphores hget]
  by_cases hj : j = index
  · rw [hj, Sync.createSemaphoreEnd, Kernel.setSemaphore_self]
  · rw [Sync.createSemaphoreEnd, Kernel.setSemaphore_ne _ _ hj]

theorem reserve_used (index : ℤ) (name : ℕ) (hused : (s.kernel.semaphores j).used = true) :
    ((s.reserve index name).kernel.semaphores j).used = true := by
  by_cases hj : j = index
  · rw [hj]
    exact congrArg Semaphore.used (Kernel.setSemaphore_self _ _ _)
  · exact (congrArg Semaphore.used (Kernel.setSemaphore_ne _ _ hj)).trans hused

/-- An object stays in use until its creator closes it. -/
theorem op_used {op : Op} (hclosed : op.closed s ≠ some e) (hused : e.used s.kernel = true)
    (hrun : op.perform s = some t) : e.used t.kernel = true := by
  have hkept : (∀ m, op ≠ .close m) → op.KeepsNames → e.used t.kernel = true :=
    fun hclose hkeeps =>
      Element.used_congr (op_slotsKept hclose hrun) (op_names hkeeps hrun).used hused
  cases op with
  | close i =>
    obtain ⟨k', hk, rfl⟩ := Option.map_eq_some_iff.mp hrun
    rcases closeMutex_cases hk with rfl | ⟨-, hcreator, rfl⟩
    · exact hused
    · cases e with
      | mutex m =>
        have hne : m ≠ i := by
          rintro rfl
          exact hclosed (if_pos hcreator)
        exact (congrArg Mutex.used (Kernel.setMutex_ne _ _ hne)).trans hused
      | semaphore j => exact hused
  | closeSemaphore i =>
    obtain ⟨k', hk, rfl⟩ := Option.map_eq_some_iff.mp hrun
    rcases semClose_cases hk with rfl | ⟨-, hcreator, rfl⟩
    · exact hused
    · cases e with
      | mutex m => exact hused
      | semaphore j =>
        have hne : j ≠ i := by
          rintro rfl
          exact hclosed (if_pos hcreator)
        exact (congrArg Semaphore.used (Kernel.setSemaphore_ne _ _ hne)).trans hused
  | reserve index name =>
    obtain rfl := Option.some.inj hrun
    cases e with
    | mutex i => exact hused
    | semaphore j => exact reserve_used index name hused
  | createSemaphoreEnd index name start pid =>
    refine Element.used_congr (op_slotsKept ?_ hrun) (createSemaphoreEnd_used hrun) hused
    exact fun _ hm => nomatch hm
  | store strings =>
    obtain rfl := Option.some.inj hrun
    cases e <;> exact hused
  | _ => exact hkept (fun _ hm => nomatch hm) trivial

/-- No slot loses a semaphore that was created in it. -/
theorem op_generation {op : Op} (hrun : op.perform s = some t) (j : ℤ) :
    s.ledger.generation j ≤ t.ledger.generation j := by
  cases op with
  | lock mutex garbage rest =>
    obtain ⟨⟨returned, u⟩, hlock, rfl⟩ := Option.map_eq_some_iff.mp hrun
    obtain ⟨⟨b, k'⟩, -, hpair⟩ := Option.map_eq_some_iff.mp hlock
    cases b with
    | true =>
      obtain ⟨-, rfl⟩ := Prod.mk.inj hpair
      dsimp only
      split_ifs <;> exact le_rfl
    | false =>
      obtain ⟨-, rfl⟩ := Prod.mk.inj hpair
      exact le_rfl
  | createSemaphoreEnd index name start pid =>
    obtain ⟨-, -, haccount, -, hne⟩ := createSemaphoreEnd_spec hrun
    by_cases hj : j = index
    · rw [hj, show t.ledger.generation index = _ from congrArg Account.generation haccount]
      exact Nat.le_succ _
    · exact (congrArg Account.generation (hne j hj).account).ge
  | waitEnd i =>
    obtain ⟨⟨returned, k'⟩, -, rfl⟩ := Option.map_eq_some_iff.mp hrun
    cases returned <;> exact le_rfl
  | signal i =>
    obtain ⟨k', -, rfl⟩ := Option.map_eq_some_iff.mp hrun
    dsimp only
    split_ifs <;> exact le_rfl
  | wake =>
    obtain rfl := Option.some.inj hrun
    unfold Machine.wake
    dsimp only
    split
    · exact le_rfl
    · exact le_rfl
    · split_ifs <;> exact le_rfl
  | createProcess page => exact (Option.some.inj hrun) ▸ le_rfl
  | reserve index name => exact (Option.some.inj hrun) ▸ le_rfl
  | store strings => exact (Option.some.inj hrun) ▸ le_rfl
  | _ =>
    obtain ⟨-, -, rfl⟩ := Option.map_eq_some_iff.mp hrun
    exact le_rfl

theorem Action.admitted_closed {a : Action} (hclosed : a.closed s ≠ some e) :
    a.Admitted (fun s op => op.closed s ≠ some e) s := by
  have hrest : ∀ (s : Machine) (rest : Rest),
      rest.Admitted (fun s op => op.closed s ≠ some e) s := fun s rest => by
    cases rest with
    | wait j => exact fun _ _ => nofun
    | semCreate name start =>
      intro index _ s' op _ hcreates
      cases op <;> first | exact hcreates.elim | nofun
    | createSemaphore index name start pid =>
      intro s' op _ hcreates
      cases op <;> first | exact hcreates.elim | nofun
    | lockMutex => trivial
    | getMutex name => trivial
  cases a with
  | closeMutex i => exact hclosed
  | semClose j => exact hclosed
  | removeProcess pid => exact nofun
  | signal j => exact nofun
  | wait j garbage => exact fun _ _ => hrest s _
  | semCreate name start garbage => exact fun _ => hrest s _
  | resume garbage => exact fun _ rest _ => hrest s rest
  | _ => trivial

theorem step_used {a : Action} (hclosed : a.closed s ≠ some e) (hused : e.used s.kernel = true)
    (hstep : step s a = some t) : e.used t.kernel = true := by
  have hops : Ops (fun s op => op.closed s ≠ some e) s t :=
    step_ops (fun s op hbasic => by cases op <;> first | exact hbasic.elim | nofun)
      (Action.admitted_closed hclosed) hstep
  exact hops.invariant (P := fun s => e.used s.kernel = true)
    (fun s op t hs _ hok hrun => op_used hok hs hrun) hused

theorem step_generation {a : Action} (hstep : step s a = some t) (j : ℤ) :
    s.ledger.generation j ≤ t.ledger.generation j := by
  have hops : Ops (fun _ _ => True) s t :=
    step_ops (fun _ _ _ => trivial) (Action.admitted (fun _ _ => trivial) a) hstep
  exact hops.invariant (P := fun u => s.ledger.generation j ≤ u.ledger.generation j)
    (fun _ _ _ hs _ _ hrun => hs.trans (op_generation hrun j)) le_rfl

/-! ### The processes that do not run -/

/-- How `semCreate` goes on behind `lockMutex(semaphoreMutex)`. -/
theorem semCreateEnd_cases {name : ℕ} {start : ℤ}
    (hrun : s.semCreateEnd name start garbage = some t) :
    ((∃ i, getSemIndex name s.kernel = some i) ∧ t = s) ∨
    (getSemIndex name s.kernel = none ∧ getFreePositionSemaphores s.kernel = none ∧
      s.free s.kernel.semaphoreMutex = some t) ∨
    ∃ index, getSemIndex name s.kernel = none ∧
      getFreePositionSemaphores s.kernel = some index ∧
      ((s.reserve index name).lock s.kernel.adminMutex garbage
          (.createSemaphore index name start s.pid) = some (false, t) ∨
        ∃ u, (s.reserve index name).lock s.kernel.adminMutex garbage
            (.createSemaphore index name start s.pid) = some (true, u) ∧
          u.createSemaphoreEnd index name start s.pid = some t) := by
  unfold Machine.semCreateEnd at hrun
  cases hname : getSemIndex name s.kernel with
  | some i =>
    simp only [hname] at hrun
    exact Or.inl ⟨⟨i, rfl⟩, (Option.some.inj hrun).symm⟩
  | none =>
    right
    simp only [hname] at hrun
    cases hspot : getFreePositionSemaphores s.kernel with
    | none =>
      simp only [hspot] at hrun
      exact Or.inl ⟨rfl, rfl, hrun⟩
    | some index =>
      right
      simp only [hspot] at hrun
      obtain ⟨⟨returned, u⟩, hlock, hrest⟩ := Option.bind_eq_some_iff.mp hrun
      refine ⟨index, rfl, rfl, ?_⟩
      cases returned with
      | false =>
        obtain rfl : u = t := Option.some.inj hrest
        exact Or.inl hlock
      | true => exact Or.inr ⟨u, hlock, hrest⟩

theorem lock_op {m : ℤ} {returned : Bool} (hlock : s.lock m garbage rest = some (returned, t)) :
    (Op.lock m garbage rest).perform s = some t := by
  rw [Op.perform, hlock, Option.map_some]

theorem lock_pending_ne {m : ℤ} {returned : Bool}
    (hlock : s.lock m garbage rest = some (returned, t)) (hp : p ≠ s.pid) :
    t.pending p = s.pending p := op_pending (lock_op hlock) hp

theorem semCreateEnd_pending {name : ℕ} {start : ℤ}
    (hrun : s.semCreateEnd name start garbage = some t) (hp : p ≠ s.pid) :
    t.pending p = s.pending p := by
  rcases semCreateEnd_cases hrun with
    ⟨-, rfl⟩ | ⟨-, -, hfree⟩ | ⟨index, -, -, hlock | ⟨u, hlock, hend⟩⟩
  · rfl
  · exact @op_pending _ _ (.free _) hfree _ hp
  · exact (lock_pending_ne hlock hp).trans rfl
  · have hpending := (lock_returned hlock).2.2
    rw [(createSemaphoreEnd_spec hend).2.2.2.1, hpending]
    rfl

theorem proceed_pending (hrun : s.proceed garbage rest = some t) (hp : p ≠ s.pid) :
    t.pending p = s.pending p := by
  cases rest with
  | lockMutex => exact Option.some.inj hrun ▸ rfl
  | getMutex name => exact @op_pending _ _ (.getMutexEnd name) hrun _ hp
  | semCreate name start => exact semCreateEnd_pending hrun hp
  | createSemaphore index name start pid =>
    exact @op_pending _ _ (.createSemaphoreEnd index name start pid) hrun _ hp
  | wait j => exact @op_pending _ _ (.waitEnd j) hrun _ hp

theorem lockThen_pending {m : ℤ} (hrun : s.lockThen m garbage rest = some t) (hp : p ≠ s.pid) :
    t.pending p = s.pending p := by
  rcases lockThen_cases hrun with hlock | ⟨u, hlock, hrest⟩
  · exact lock_pending_ne hlock hp
  · obtain ⟨hsched, -, hpending⟩ := lock_returned hlock
    have hpid : u.pid = s.pid := congrArg getCurrentPid hsched
    rw [proceed_pending hrest (by rwa [hpid]), hpending]

/-- A step changes only what the running process is suspended in. -/
theorem step_pending {a : Action} (hstep : step s a = some t) (hp : p ≠ s.pid) :
    t.pending p = s.pending p := by
  cases a with
  | resume garbage =>
    have hwake : s.wake.pending p = s.pending p := by rw [wake_pending, assign_ne _ _ hp]
    rcases resume_cases hstep with ⟨m, rest, -, hrest⟩ | ⟨j, g, -, rfl⟩
    · rw [proceed_pending hrest (by rwa [wake_pid]), hwake]
    · exact hwake
  | tick =>
    simp only [step] at hstep
    split_ifs at hstep
    exact @op_pending _ _ .switch hstep _ hp
  | createProcess page =>
    simp only [step] at hstep
    split_ifs at hstep
    exact @op_pending _ _ (.createProcess page) hstep _ hp
  | removeProcess pid =>
    simp only [step] at hstep
    split_ifs at hstep
    exact @op_pending _ _ (.removeProcess pid) hstep _ hp
  | store strings =>
    simp only [step] at hstep
    split_ifs at hstep
    exact @op_pending _ _ (.store strings) hstep _ hp
  | lockMutex m garbage => exact lockThen_pending (step_call hstep).2 hp
  | freeMutex m => exact @op_pending _ _ (.free m) (step_call hstep).2 _ hp
  | getMutex name garbage => exact lockThen_pending (step_call hstep).2 hp
  | closeMutex m => exact @op_pending _ _ (.close m) (step_call hstep).2 _ hp
  | semCreate name start garbage => exact lockThen_pending (step_call hstep).2 hp
  | semClose j => exact @op_pending _ _ (.closeSemaphore j) (step_call hstep).2 _ hp
  | wait j garbage =>
    have hrun := (step_call hstep).2
    simp only [Machine.call, Machine.wait] at hrun
    split_ifs at hrun
    · exact lockThen_pending hrun hp
    · exact Option.some.inj hrun ▸ rfl
  | signal j => exact @op_pending _ _ (.signal j) (step_call hstep).2 _ hp

theorem store_pending {strings : ℕ → List ℤ} (hstep : step s (.store strings) = some t) :
    t.pending = s.pending := by
  simp only [step] at hstep
  split_ifs at hstep
  exact Option.some.inj hstep ▸ rfl

theorem tick_pending (hstep : step s .tick = some t) : t.pending = s.pending := by
  simp only [step] at hstep
  split_ifs at hstep
  obtain ⟨k', -, rfl⟩ := Option.map_eq_some_iff.mp hstep
  rfl

/-! ### How the calls return -/

theorem lock_passes {m : ℤ} {returned : Bool} (hlock : s.lock m garbage rest = some (returned, t)) :
    passes m s.kernel = returned := by
  obtain ⟨⟨b, k'⟩, hk, hpair⟩ := Option.map_eq_some_iff.mp hlock
  cases b with
  | true =>
    obtain ⟨rfl, -⟩ := Prod.mk.inj hpair
    exact lockMutex_passes hk
  | false =>
    obtain ⟨rfl, -⟩ := Prod.mk.inj hpair
    exact lockMutex_passes hk

theorem lock_used {m : ℤ} {returned : Bool} (hlock : s.lock m garbage rest = some (returned, t))
    (hused : e.used s.kernel = true) : e.used t.kernel = true := by
  have hclosed : (Op.lock m garbage rest).closed s ≠ some e := nofun
  exact op_used hclosed hused (lock_op hlock)

theorem Behind.lock {m : ℤ} (hidle : s.idle = true)
    (hlock : s.lock m garbage rest = some (true, u)) : Behind s u := by
  obtain ⟨hsched, -, hpending⟩ := lock_returned hlock
  refine ⟨?_, congrArg getCurrentPid hsched, idle_of_sched hsched hpending hidle,
    op_generation (lock_op hlock)⟩
  obtain ⟨⟨returned, k'⟩, hk, hpair⟩ := Option.map_eq_some_iff.mp hlock
  cases returned with
  | true =>
    obtain ⟨-, rfl⟩ := Prod.mk.inj hpair
    exact lockMutex_names hk
  | false => exact absurd (Prod.mk.inj hpair).1 (by simp)

theorem Behind.wake (s : Machine) : Behind s s.wake :=
  ⟨by rw [wake_kernel]; exact SameSearches.refl _, wake_pid, wake_idle,
    @op_generation _ _ .wake rfl⟩

theorem Behind.used (h : Behind s u) (e : Element) : e.used u.kernel = e.used s.kernel := by
  cases e with
  | mutex i => exact h.searches.used i
  | semaphore j => exact congrArg Semaphore.used (congrFun h.searches.semaphores j)

theorem Behind.refused (h : Behind s u) : rest.refused u.kernel = rest.refused s.kernel := by
  cases rest <;> simp only [Rest.refused, getIndex, getFreeSpot, getSemIndex,
    getFreePositionSemaphores, h.searches.semaphores, h.searches.strings, h.searches.used,
    h.searches.name]

theorem carriesOut_cases {a : Action} (hcarries : s.carriesOut a = some (rest, u)) :
    (∃ name garbage, a = .getMutex name garbage ∧ rest = .getMutex name ∧
      s.lock s.kernel.adminMutex garbage rest = some (true, u)) ∨
    s.goesOn a = some (rest, u) := by
  cases a with
  | getMutex name garbage =>
    obtain ⟨⟨returned, v⟩, hlock, hrest⟩ := Option.bind_eq_some_iff.mp hcarries
    cases returned with
    | false => simp at hrest
    | true =>
      obtain ⟨rfl, rfl⟩ := Prod.mk.inj (Option.some.inj hrest)
      exact Or.inl ⟨name, garbage, rfl, rfl, hlock⟩
  | _ => exact Or.inr hcarries

/-- The rest of the call is carried out behind `lockMutex`. -/
theorem carriesOut_spec {a : Action} (hcarries : s.carriesOut a = some (rest, u))
    (hstep : step s a = some t) :
    Behind s u ∧ ∃ garbage, u.proceed garbage rest = some t := by
  rcases carriesOut_cases hcarries with ⟨name, garbage, rfl, rfl, hlock⟩ | hgoes
  · obtain ⟨hidle, hrun⟩ := step_call hstep
    refine ⟨.lock hidle hlock, garbage, ?_⟩
    simpa [Machine.call, Machine.lockThen, hlock] using hrun
  · rcases goesOn_cases hgoes with ⟨name, start, garbage, rfl, rfl, hidle, -, hlock⟩ |
      ⟨garbage, m, rfl, hpending, rfl⟩
    · refine ⟨.lock hidle hlock, garbage, ?_⟩
      simpa [Machine.call, Machine.lockThen, hlock] using (step_call hstep).2
    · refine ⟨.wake s, garbage, ?_⟩
      simpa [step, Machine.resume, hpending] using hstep

theorem getMutex_suspended {name : ℕ} (hnone : s.carriesOut (.getMutex name garbage) = none)
    (hstep : step s (.getMutex name garbage) = some t) :
    ∃ m, t.pending s.pid = some (.locking m (.getMutex name)) := by
  rcases lockThen_cases (step_call hstep).2 with hlock | ⟨u, hlock, -⟩
  · exact ⟨_, lock_pending hlock⟩
  · simp [Machine.carriesOut, hlock] at hnone

theorem semCreate_suspended {name : ℕ} {start : ℤ}
    (hnone : s.carriesOut (.semCreate name start garbage) = none)
    (hstep : step s (.semCreate name start garbage) = some t) :
    ∃ m, t.pending s.pid = some (.locking m (.semCreate name start)) := by
  rcases lockThen_cases (step_call hstep).2 with hlock | ⟨u, hlock, -⟩
  · exact ⟨_, lock_pending hlock⟩
  · have hcall : s.idle = true ∧ s.pid ≠ initPid := by
      simp only [step] at hstep
      split_ifs at hstep with hc
      exact hc
    simp [Machine.carriesOut, Machine.goesOn, hcall, hlock] at hnone

/-- `getMutex` returns a mutex that is in use, or `ERROR`. -/
theorem getMutexEnd_result {name : ℕ} (hrun : s.getMutexEnd name = some t) :
    t.pending = s.pending ∧ ∃ r, (Rest.getMutex name).result s = some r ∧
      (((Rest.getMutex name).refused s.kernel = true ∧ r = error) ∨
        ((Element.mutex r).InTable ∧ (Element.mutex r).used t.kernel = true)) := by
  obtain ⟨⟨r, k'⟩, hk, rfl⟩ := Option.map_eq_some_iff.mp hrun
  refine ⟨rfl, r, by simp [Rest.result, hk], ?_⟩
  rcases getMutexRest_cases hk with ⟨hindex, hfree⟩ | ⟨hindex, hspot, rfl, -⟩ |
    ⟨hindex, hspot, hfree⟩
  · obtain ⟨h0, hlt, hfound⟩ := firstIndex_spec hindex
    have hused : (s.kernel.mutexes r).used = true := (of_decide_eq_true hfound).2
    exact Or.inr ⟨⟨h0, hlt⟩, ((slotsKept_freeMutex hfree).slot r hused).1⟩
  · exact Or.inl ⟨by simp [Rest.refused, hindex, hspot], rfl⟩
  · obtain ⟨h0, hlt, -⟩ := firstIndex_spec hspot
    refine Or.inr ⟨⟨h0, hlt⟩, ?_⟩
    exact ((slotsKept_freeMutex hfree).slot r (by rw [Kernel.setMutex_self])).1

/-- The end of `semCreate` puts a new semaphore into the slot. -/
theorem createSemaphoreEnd_result {index : ℤ} {name : ℕ} {start pid : ℤ}
    (hrun : s.createSemaphoreEnd index name start pid = some t) :
    t.pending = s.pending ∧ s.ledger.generation index < t.ledger.generation index := by
  obtain ⟨-, -, haccount, hpending, -⟩ := createSemaphoreEnd_spec hrun
  have hgeneration : t.ledger.generation index = s.ledger.generation index + 1 :=
    congrArg Account.generation haccount
  exact ⟨hpending, by omega⟩

/-- `semCreate` returns `ERROR`, or it takes a slot that was not in use, in which it creates the
semaphore now or when the process runs again. -/
theorem semCreateEnd_result {name : ℕ} {start : ℤ}
    (hrun : s.semCreateEnd name start garbage = some t) :
    ((Rest.semCreate name start).refused s.kernel = true ∧
      (Rest.semCreate name start).result s = some error ∧ t.pending = s.pending) ∨
    ∃ index, (Element.semaphore index).InTable ∧
      (Element.semaphore index).used s.kernel = false ∧
      (Element.semaphore index).used t.kernel = true ∧
      (((Rest.semCreate name start).result s = some index ∧ t.pending = s.pending ∧
          s.ledger.generation index < t.ledger.generation index) ∨
        ((Rest.semCreate name start).result s = none ∧
          ∃ m, t.pending s.pid = some (.locking m (.createSemaphore index name start s.pid)))) := by
  rcases semCreateEnd_cases hrun with
    ⟨⟨i, hname⟩, rfl⟩ | ⟨hname, hspot, hfree⟩ | ⟨index, hname, hspot, hlocks⟩
  · exact Or.inl ⟨by simp [Rest.refused, hname],
      by simp [Rest.result, Rest.semCreateResult, hname], rfl⟩
  · obtain ⟨k', -, rfl⟩ := Option.map_eq_some_iff.mp hfree
    exact Or.inl ⟨by simp [Rest.refused, hspot],
      by simp [Rest.result, Rest.semCreateResult, hname, hspot], rfl⟩
  · right
    obtain ⟨h0, hlt, hunused⟩ := firstIndex_spec hspot
    have hreserved : (Element.semaphore index).used (s.reserve index name).kernel = true :=
      congrArg Semaphore.used (Kernel.setSemaphore_self _ _ _)
    have hfree : (s.kernel.semaphores index).used = false := by simpa using hunused
    refine ⟨index, ⟨h0, hlt⟩, hfree, ?_⟩
    rcases hlocks with hlock | ⟨u, hlock, hend⟩
    · have hpasses := lock_passes hlock
      have hpending := lock_pending hlock
      refine ⟨lock_used hlock hreserved, Or.inr ⟨?_, _, hpending⟩⟩
      simp [Rest.result, Rest.semCreateResult, hname, hspot, hpasses]
    · have hpasses := lock_passes hlock
      have hused := lock_used hlock hreserved
      obtain ⟨hpending, hgeneration⟩ := createSemaphoreEnd_result hend
      refine ⟨(createSemaphoreEnd_used hend index).trans hused, Or.inl ⟨?_, ?_, ?_⟩⟩
      · simp [Rest.result, Rest.semCreateResult, hname, hspot, hpasses]
      · rw [hpending, (lock_returned hlock).2.2]
        rfl
      · exact (op_generation (lock_op hlock) index).trans_lt hgeneration

end

end GatOS.Sync
