import GatOS.Philosophers

/-!
# Runs of the philosophers

As long as the philosophers find the forks free when they ask for them, `take_fork` returns to a
philosopher that is eating, and no two neighbours eat at once. A philosopher that finds a fork
taken waits on a semaphore that is not its own and goes on hungry.
-/
namespace GatOS.Philosophers
open Scheduler Sync Transition

/-! ### The condition -/

/-- A philosopher that asks for the forks in `take_fork` finds them free, and `testP` overlooks no
neighbour on the left. -/
def Fits (T : Table) (s : State) (garbage : ℤ) (x : Philosopher) : Place → Prop
  | .lockTake | .lockPut =>
    s.machine.idle = true → FindsRoom s.machine (.lockMutex T.mutex garbage)
  | .test call =>
    (call = .own → s.state ((x.value + 4) % T.total) ≠ eating ∧
      s.state ((x.value + 1) % T.total) ≠ eating) ∧
    (s.testP T (T.number x call) = true → T.total = 2 ∨ T.total = 5 ∨
      s.state ((T.number x call + (T.total - 1)) % T.total) ≠ eating)
  | .hungry | .eat _ | .signal _ | .freeTake | .wait | .think | .freePut => True

def FitsStep (T : Table) (s : State) : Event → Prop
  | .run garbage => ∀ x ∈ s.philosophers s.machine.pid, Fits T s garbage x x.place
  | .createProcess _ | .other _ => True

instance (T : Table) (s : State) (garbage : ℤ) (x : Philosopher) :
    (place : Place) → Decidable (Fits T s garbage x place)
  | .lockTake | .lockPut => inferInstanceAs (Decidable (_ → _))
  | .test _ => inferInstanceAs (Decidable (_ ∧ _))
  | .hungry | .eat _ | .signal _ | .freeTake | .wait | .think | .freePut => .isTrue trivial

instance (T : Table) (s : State) : (e : Event) → Decidable (FitsStep T s e)
  | .run garbage =>
    inferInstanceAs (Decidable (∀ x ∈ s.philosophers s.machine.pid, Fits T s garbage x x.place))
  | .createProcess _ | .other _ => .isTrue trivial

/-! ### The places -/

namespace Philosopher

/-- Between `lockMutex` and `freeMutex`. -/
def Inside (x : Philosopher) : Prop :=
  match x.place with
  | .lockTake | .wait | .lockPut => False
  | _ => True

/-- Between the assignment in `testP` and the return of `take_fork`. -/
def Fed (x : Philosopher) : Prop :=
  x.place = .signal .own ∨ x.place = .freeTake ∨ x.place = .wait ∨ x.place = .lockPut

/-- Where the philosopher is suspended. -/
def Parked (T : Table) (k : Kernel) (x : Philosopher) (c : Pending) : Prop :=
  match x.place with
  | .lockTake | .lockPut => c = .locking T.mutex .lockMutex
  | .wait => c.spares T.mutex k = true
  | _ => False

end Philosopher

/-! ### The invariant -/

/-- The mutex. -/
structure Guarded (T : Table) (s : State) : Prop where
  settled : Settled s.machine
  exclusive : Exclusive s.machine T.mutex
  valid : isValidMutex T.mutex s.machine.kernel = true
  semaphores : ∀ j, 0 ≤ j → isValidSemaphore j s.machine.kernel = true →
    (s.machine.kernel.semaphores j).mutex ≠ T.mutex

/-- The processes. -/
structure Seated (T : Table) (s : State) : Prop where
  range : ∀ p x, s.philosophers p = some x → p < s.machine.kernel.sched.pid
  value : ∀ p x, s.philosophers p = some x → x.value < s.created
  created : s.created ≤ T.total
  unique : ∀ p q x y, s.philosophers p = some x → s.philosophers q = some y →
    x.value = y.value → p = q
  parked : ∀ p x c, s.philosophers p = some x → s.machine.pending p = some c →
    x.Parked T s.machine.kernel c
  inside : ∀ p x, s.philosophers p = some x → x.Inside →
    p ∈ s.machine.ledger.holders T.mutex

/-- The forks. -/
structure Polite (T : Table) (s : State) : Prop where
  hungry : ∀ p x, s.philosophers p = some x → x.place = .test .own → s.state x.value = hungry
  tested : ∀ p x call, s.philosophers p = some x → x.place = .eat call →
    s.state ((T.number x call + 1) % T.total) ≠ eating ∧
      s.state ((T.number x call + (T.total - 1)) % T.total) ≠ eating
  fed : ∀ p x, s.philosophers p = some x → x.Fed → s.state x.value = eating
  apart : ∀ i < T.total, ¬ (s.state i = eating ∧ s.state ((i + 1) % T.total) = eating)

structure Invariant (T : Table) (s : State) : Prop where
  guarded : Guarded T s
  seated : Seated T s
  polite : Polite T s

section

variable {T : Table} {s t : State} {m : Machine} {p q : ℤ} {x y : Philosopher} {place : Place}
  {garbage : ℤ}

/-! ### Steps of the machine -/

theorem Guarded.of_step (h : Guarded T s) {me : ℤ} (hm : KeepsMutex T.mutex me s.machine m)
    (ht : t.machine = m) : Guarded T t := by
  subst ht
  refine ⟨hm.settled, hm.exclusive, hm.valid.trans h.valid, fun j h0 hj => ?_⟩
  rw [hm.names.isValidSemaphore] at hj
  rw [hm.names.mutex]
  exact h.semaphores j h0 hj

theorem Philosopher.Parked.congr {k k' : Kernel} {c : Pending} (h : x.Parked T k c)
    (hnames : SameNames k k') : x.Parked T k' c := by
  unfold Parked at *
  split
  · rename_i hplace
    simpa only [hplace] using h
  · rename_i hplace
    simpa only [hplace] using h
  · rename_i hplace
    simp only [hplace] at h
    exact (Pending.spares_congr hnames).trans h
  · rename_i h1 h2 h3
    split at h
    · exact h1 ‹_›
    · exact h2 ‹_›
    · exact h3 ‹_›
    · exact h

/-- The philosophers after one of them has moved. -/
theorem update_cases (hphilosophers : t.philosophers = Function.update s.philosophers p (some x))
    (hy : t.philosophers q = some y) : (q = p ∧ y = x) ∨ (q ≠ p ∧ s.philosophers q = some y) := by
  rw [hphilosophers] at hy
  by_cases hq : q = p
  · subst hq
    rw [Function.update_self] at hy
    exact Or.inl ⟨rfl, (Option.some.inj hy).symm⟩
  · rw [Function.update_of_ne hq] at hy
    exact Or.inr ⟨hq, hy⟩

/-- The running philosopher goes on at another place. -/
theorem Seated.move (h : Seated T s) (hx : s.philosophers s.machine.pid = some x)
    (hphilosophers : t.philosophers =
      Function.update s.philosophers s.machine.pid (some { x with place := place }))
    (hcreated : t.created = s.created)
    (hnames : SameNames s.machine.kernel t.machine.kernel)
    (hcount : s.machine.kernel.sched.pid ≤ t.machine.kernel.sched.pid)
    (hpending : ∀ q ≠ s.machine.pid, t.machine.pending q = s.machine.pending q)
    (hholders : ∀ q ∈ s.machine.ledger.holders T.mutex, q ≠ s.machine.pid →
      q ∈ t.machine.ledger.holders T.mutex)
    (hparked : ∀ c, t.machine.pending s.machine.pid = some c →
      Philosopher.Parked T s.machine.kernel { x with place := place } c)
    (hinside : Philosopher.Inside { x with place := place } →
      s.machine.pid ∈ t.machine.ledger.holders T.mutex) : Seated T t := by
  refine ⟨fun q y hy => ?_, fun q y hy => ?_, hcreated ▸ h.created, fun q r y z hy hz hv => ?_,
    fun q y c hy hc => ?_, fun q y hy hin => ?_⟩
  · rcases update_cases hphilosophers hy with ⟨rfl, -⟩ | ⟨-, hy⟩
    · exact (h.range _ x hx).trans_le hcount
    · exact (h.range q y hy).trans_le hcount
  · rw [hcreated]
    rcases update_cases hphilosophers hy with ⟨-, rfl⟩ | ⟨-, hy⟩
    · exact h.value _ x hx
    · exact h.value q y hy
  · rcases update_cases hphilosophers hy with ⟨rfl, rfl⟩ | ⟨hq, hy⟩
    · rcases update_cases hphilosophers hz with ⟨rfl, -⟩ | ⟨-, hz⟩
      · rfl
      · exact h.unique _ r x z hx hz hv
    · rcases update_cases hphilosophers hz with ⟨rfl, rfl⟩ | ⟨-, hz⟩
      · exact h.unique q _ y x hy hx hv
      · exact h.unique q r y z hy hz hv
  · rcases update_cases hphilosophers hy with ⟨rfl, rfl⟩ | ⟨hq, hy⟩
    · exact (hparked c hc).congr hnames
    · rw [hpending q hq] at hc
      exact (h.parked q y c hy hc).congr hnames
  · rcases update_cases hphilosophers hy with ⟨rfl, rfl⟩ | ⟨hq, hy⟩
    · exact hinside hin
    · exact hholders q (h.inside q y hy hin) hq

/-- Only one philosopher is inside. -/
theorem Invariant.alone (h : Invariant T s) (hx : s.philosophers p = some x) (hin : x.Inside)
    (hy : s.philosophers q = some y) (hin' : y.Inside) : q = p :=
  h.guarded.exclusive.holder_unique (h.seated.inside q y hy hin') (h.seated.inside p x hx hin)

/-- A call has returned, or the philosopher stays where it is. -/
theorem afterCall_cases (place : Place) (m : Machine)
    (hx : s.philosophers s.machine.pid = some x) :
    (m.pending s.machine.pid = none ∧
        s.afterCall x place m = { s.goto x place with machine := m }) ∨
      (∃ c, m.pending s.machine.pid = some c) ∧
        s.afterCall x place m = { s.goto x x.place with machine := m } := by
  unfold State.afterCall
  cases hc : m.pending s.machine.pid with
  | none => exact Or.inl ⟨rfl, if_pos rfl⟩
  | some c =>
    refine Or.inr ⟨⟨c, rfl⟩, ?_⟩
    rw [if_neg (by simp), State.goto, Function.update_eq_self_iff.mpr hx.symm]

/-! ### The forks -/

theorem right_ne {n j : ℕ} (hn : 2 ≤ n) (hj : j < n) : (j + 1) % n ≠ j := by
  rcases Nat.lt_or_ge (j + 1) n with hlt | hge
  · rw [Nat.mod_eq_of_lt hlt]
    omega
  · obtain rfl : n = j + 1 := by omega
    rw [Nat.mod_self]
    omega

theorem left_right {n i : ℕ} (hi : i < n) : ((i + 1) % n + (n - 1)) % n = i := by
  rw [Nat.mod_add_mod, show i + 1 + (n - 1) = i + n by omega, Nat.add_mod_right,
    Nat.mod_eq_of_lt hi]

theorem Seated.value_lt (h : Seated T s) (hx : s.philosophers p = some x) :
    x.value < T.total := (h.value p x hx).trans_le h.created

theorem Seated.number_lt (h : Seated T s) (hx : s.philosophers p = some x) (call : Test) :
    T.number x call < T.total := by
  have hlt := h.value_lt hx
  cases call with
  | own => exact hlt
  | left => exact Nat.mod_lt _ (by omega)
  | right => exact Nat.mod_lt _ (by omega)

/-- The array does not change. -/
theorem Polite.of_read (h : Polite T s)
    (hphilosophers : t.philosophers =
      Function.update s.philosophers s.machine.pid (some { x with place := place }))
    (hstate : t.state = s.state)
    (hhungry : place = .test .own → s.state x.value = Philosophers.hungry)
    (htested : ∀ call, place = .eat call →
      s.state ((T.number x call + 1) % T.total) ≠ eating ∧
        s.state ((T.number x call + (T.total - 1)) % T.total) ≠ eating)
    (hfed : Philosopher.Fed { x with place := place } → s.state x.value = eating) :
    Polite T t := by
  refine ⟨fun q y hy hplace => ?_, fun q y call hy hplace => ?_, fun q y hy hf => ?_, ?_⟩
  · rw [hstate]
    rcases update_cases hphilosophers hy with ⟨-, rfl⟩ | ⟨-, hy⟩
    · exact hhungry hplace
    · exact h.hungry q y hy hplace
  · rw [hstate]
    rcases update_cases hphilosophers hy with ⟨-, rfl⟩ | ⟨-, hy⟩
    · exact htested call hplace
    · exact h.tested q y call hy hplace
  · rw [hstate]
    rcases update_cases hphilosophers hy with ⟨-, rfl⟩ | ⟨-, hy⟩
    · exact hfed hf
    · exact h.fed q y hy hf
  · rw [hstate]
    exact h.apart

theorem inside_of_test {call : Test} (h : x.place = .test call ∨ x.place = .eat call) :
    x.Inside := by
  rcases h with h | h <;> simp [Philosopher.Inside, h]

/-- The philosopher inside writes an entry: its own, or one whose neighbours do not eat. -/
theorem Polite.of_write (hn : 2 ≤ T.total) (h : Invariant T s)
    (hx : s.philosophers s.machine.pid = some x) (hin : x.Inside) {j : ℕ} {v : ℤ}
    (hphilosophers : t.philosophers =
      Function.update s.philosophers s.machine.pid (some { x with place := place }))
    (hstate : t.state = Function.update s.state j v)
    (hv : (v ≠ eating ∧ j = x.value) ∨ (v = eating ∧ j < T.total ∧
      s.state ((j + 1) % T.total) ≠ eating ∧ s.state ((j + (T.total - 1)) % T.total) ≠ eating))
    (hhungry : place = .test .own → j = x.value ∧ v = Philosophers.hungry)
    (htested : ∀ call, place ≠ .eat call)
    (hfed : Philosopher.Fed { x with place := place } → v = eating ∧ j = x.value) :
    Polite T t := by
  refine ⟨fun q y hy hplace => ?_, fun q y call hy hplace => ?_, fun q y hy hf => ?_,
    fun i hi => ?_⟩
  · rcases update_cases hphilosophers hy with ⟨-, rfl⟩ | ⟨hq, hy⟩
    · obtain ⟨rfl, rfl⟩ := hhungry hplace
      rw [hstate, Function.update_self]
    · exact absurd (h.alone hx hin hy (inside_of_test (Or.inl hplace))) hq
  · rcases update_cases hphilosophers hy with ⟨-, rfl⟩ | ⟨hq, hy⟩
    · exact absurd hplace (htested call)
    · exact absurd (h.alone hx hin hy (inside_of_test (Or.inr hplace))) hq
  · rw [hstate]
    rcases update_cases hphilosophers hy with ⟨-, rfl⟩ | ⟨hq, hy⟩
    · obtain ⟨rfl, rfl⟩ := hfed hf
      rw [Function.update_self]
    · have heating := h.polite.fed q y hy hf
      by_cases hj : y.value = j
      · rcases hv with ⟨-, hown⟩ | ⟨hv, -⟩
        · exact absurd (h.seated.unique q _ y x hy hx (hj.trans hown)) hq
        · rw [hj, Function.update_self, hv]
      · rw [Function.update_of_ne hj, heating]
  · rw [hstate]
    rcases hv with ⟨hv, -⟩ | ⟨hv, hj, hright, hleft⟩
    · -- nobody new eats
      have hold : ∀ a, Function.update s.state j v a = eating → s.state a = eating :=
        fun a ha => by
          by_cases haj : a = j
          · rw [haj, Function.update_self] at ha
            exact absurd ha hv
          · rwa [Function.update_of_ne haj] at ha
      rintro ⟨h1, h2⟩
      exact h.polite.apart i hi ⟨hold i h1, hold _ h2⟩
    · rintro ⟨h1, h2⟩
      by_cases hij : i = j
      · subst hij
        rw [Function.update_of_ne (right_ne hn hi)] at h2
        exact hright h2
      · rw [Function.update_of_ne hij] at h1
        by_cases hnext : (i + 1) % T.total = j
        · rw [← hnext, left_right hi] at hleft
          exact hleft h1
        · rw [Function.update_of_ne hnext] at h2
          exact h.polite.apart i hi ⟨h1, h2⟩

/-! ### Statements -/

/-- A statement that is no system call. -/
theorem Invariant.of_statement (h : Invariant T s) (hx : s.philosophers s.machine.pid = some x)
    (hin : x.Inside)
    (hmachine : t.machine = s.machine) (hcreated : t.created = s.created)
    (hphilosophers : t.philosophers =
      Function.update s.philosophers s.machine.pid (some { x with place := place }))
    (hpolite : Polite T t) : Invariant T t := by
  have hnone : s.machine.pending s.machine.pid = none := by
    cases hc : s.machine.pending s.machine.pid with
    | none => rfl
    | some c =>
      have hparked := h.seated.parked _ x c hx hc
      unfold Philosopher.Parked at hparked
      unfold Philosopher.Inside at hin
      cases hplace : x.place <;> simp [hplace] at hparked hin
  refine ⟨⟨hmachine ▸ h.guarded.settled, hmachine ▸ h.guarded.exclusive,
    hmachine ▸ h.guarded.valid, hmachine ▸ h.guarded.semaphores⟩, ?_, hpolite⟩
  refine h.seated.move hx hphilosophers hcreated (hmachine ▸ SameNames.refl _) (by rw [hmachine])
    (fun _ _ => by rw [hmachine]) (fun q hq _ => hmachine ▸ hq) (fun c hc => ?_) fun _ => ?_
  · rw [hmachine, hnone] at hc
    exact absurd hc (by simp)
  · rw [hmachine]
    exact h.seated.inside _ x hx hin

theorem Invariant.hungry (hn : 2 ≤ T.total) (h : Invariant T s)
    (hx : s.philosophers s.machine.pid = some x) (hplace : x.place = .hungry) :
    Invariant T ((s.setState x.value Philosophers.hungry).goto x (.test .own)) := by
  have hin : x.Inside := by simp [Philosopher.Inside, hplace]
  refine h.of_statement hx hin rfl rfl rfl
    (.of_write hn h hx hin rfl rfl (Or.inl ⟨by decide, rfl⟩) (fun _ => ⟨rfl, rfl⟩)
      (fun _ => by simp) fun hf => ?_)
  simp [Philosopher.Fed] at hf

theorem Invariant.think (hn : 2 ≤ T.total) (h : Invariant T s)
    (hx : s.philosophers s.machine.pid = some x) (hplace : x.place = .think) :
    Invariant T ((s.setState x.value thinking).goto x (.test .left)) := by
  have hin : x.Inside := by simp [Philosopher.Inside, hplace]
  refine h.of_statement hx hin rfl rfl rfl
    (.of_write hn h hx hin rfl rfl (Or.inl ⟨by decide, rfl⟩) (fun he => by simp at he)
      (fun _ => by simp) fun hf => ?_)
  simp [Philosopher.Fed] at hf

theorem Invariant.eat (hn : 2 ≤ T.total) (h : Invariant T s)
    (hx : s.philosophers s.machine.pid = some x) {call : Test} (hplace : x.place = .eat call) :
    Invariant T ((s.setState (T.number x call) eating).goto x (.signal call)) := by
  have hin : x.Inside := by simp [Philosopher.Inside, hplace]
  obtain ⟨hright, hleft⟩ := h.polite.tested _ x call hx hplace
  refine h.of_statement hx hin rfl rfl rfl
    (.of_write hn h hx hin rfl rfl
      (Or.inr ⟨rfl, h.seated.number_lt hx call, hright, hleft⟩) (fun he => by simp at he)
      (fun _ => by simp) fun hf => ⟨rfl, ?_⟩)
  have hown : call = .own := by simpa [Philosopher.Fed] using hf
  rw [hown]
  rfl

/-- For two and for five philosophers `testP` sees both neighbours. -/
theorem testP_left (hn : T.total = 2 ∨ T.total = 5) {j : ℕ} (htest : s.testP T j = true) :
    s.state ((j + (T.total - 1)) % T.total) ≠ eating := by
  obtain ⟨-, hfar, hright⟩ := of_decide_eq_true htest
  rcases hn with hn | hn
  · rw [hn] at hright ⊢
    exact hright
  · rw [hn] at hfar ⊢
    exact hfar

theorem Invariant.test (h : Invariant T s) (hx : s.philosophers s.machine.pid = some x)
    {call : Test} (hplace : x.place = .test call) (hfits : Fits T s garbage x x.place) :
    Invariant T (s.goto x (if s.testP T (T.number x call) then .eat call else call.after)) := by
  have hin : x.Inside := by simp [Philosopher.Inside, hplace]
  simp only [Fits, hplace] at hfits
  obtain ⟨hfree, hleft⟩ := hfits
  split_ifs with htest
  · obtain ⟨-, -, hright⟩ := of_decide_eq_true htest
    refine h.of_statement hx hin rfl rfl rfl
      (h.polite.of_read rfl rfl (fun he => by simp at he) (fun call' he => ?_) fun hf => ?_)
    · obtain rfl := Place.eat.inj he
      refine ⟨hright, ?_⟩
      rcases hleft htest with hn | hn | hleft
      · exact testP_left (Or.inl hn) htest
      · exact testP_left (Or.inr hn) htest
      · exact hleft
    · simp [Philosopher.Fed] at hf
  · -- in `take_fork` the forks are free, so the test succeeds
    have hcall : call ≠ .own := fun he => by
      subst he
      refine htest (decide_eq_true ⟨h.polite.hungry _ x hx hplace, ?_⟩)
      exact hfree rfl
    refine h.of_statement hx hin rfl rfl rfl
      (h.polite.of_read rfl rfl (fun he => ?_) (fun call' he => ?_) fun hf => ?_)
    · cases call <;> simp [Test.after] at he
    · cases call <;> simp [Test.after] at he
    · cases call <;> simp_all [Philosopher.Fed, Test.after]

/-! ### System calls -/

/-- A system call, after which the philosopher is at `place`. -/
theorem Invariant.of_call (h : Invariant T s) (hx : s.philosophers s.machine.pid = some x)
    (hkeeps : KeepsMutex T.mutex s.machine.pid s.machine m)
    (hholders : ∀ q ∈ s.machine.ledger.holders T.mutex, q ≠ s.machine.pid →
      q ∈ m.ledger.holders T.mutex)
    (hparked : ∀ c, m.pending s.machine.pid = some c →
      Philosopher.Parked T s.machine.kernel { x with place := place } c)
    (hinside : Philosopher.Inside { x with place := place } →
      s.machine.pid ∈ m.ledger.holders T.mutex)
    (htest : place ≠ .test .own) (heat : ∀ call, place ≠ .eat call)
    (hfed : Philosopher.Fed { x with place := place } → x.Fed) :
    Invariant T { s.goto x place with machine := m } :=
  ⟨h.guarded.of_step hkeeps rfl,
    h.seated.move hx rfl rfl hkeeps.names hkeeps.count hkeeps.pending hholders hparked hinside,
    h.polite.of_read rfl rfl (fun he => absurd he htest) (fun call he => absurd he (heat call))
      fun hf => h.polite.fed _ x hx (hfed hf)⟩

theorem Invariant.lock (h : Invariant T s) (hx : s.philosophers s.machine.pid = some x)
    (hplace : x.place = .lockTake ∨ x.place = .lockPut)
    (hroom : s.machine.idle = true → FindsRoom s.machine (.lockMutex T.mutex garbage))
    (hnext : place = .hungry ∨ place = .think)
    (hrun : lockOn T.mutex garbage s.machine = some m) :
    Invariant T (s.afterCall x place m) := by
  have hout : ¬ x.Inside := by rcases hplace with hp | hp <;> simp [Philosopher.Inside, hp]
  have hparkedAs : x.Parked T s.machine.kernel (.locking T.mutex .lockMutex) := by
    rcases hplace with hp | hp <;> simp [Philosopher.Parked, hp]
  have hoccupied : m.pending s.machine.pid = none →
      KeepsMutex T.mutex s.machine.pid s.machine m →
      m.ledger.holders T.mutex = s.machine.pid :: s.machine.ledger.holders T.mutex →
      Invariant T { s.goto x place with machine := m } := fun hnone hkeeps hholders => by
    refine h.of_call hx hkeeps (fun q hq _ => ?_) (fun c hc => ?_) (fun _ => ?_) ?_ ?_ fun hf => ?_
    · rw [hholders]
      exact List.mem_cons_of_mem _ hq
    · rw [hnone] at hc
      exact absurd hc (by simp)
    · rw [hholders]
      exact List.mem_cons_self
    · rcases hnext with rfl | rfl <;> simp
    · rcases hnext with rfl | rfl <;> simp
    · rcases hnext with rfl | rfl <;> simp [Philosopher.Fed] at hf
  unfold lockOn at hrun
  cases hc : s.machine.pending s.machine.pid with
  | none =>
    have hidle : s.machine.idle = true := by rw [Machine.idle, hc]; rfl
    rw [if_pos hidle] at hrun
    obtain ⟨hkeeps, ⟨hnone, hholders⟩ | ⟨hpending, hholders⟩⟩ :=
      step_lock h.guarded.settled h.guarded.exclusive h.guarded.valid (hroom hidle) hrun
    · rcases afterCall_cases place m hx with ⟨-, ht⟩ | ⟨⟨c, hc⟩, -⟩
      · rw [ht]
        exact hoccupied hnone hkeeps hholders
      · exact absurd (hnone.symm.trans hc) (by simp)
    · rcases afterCall_cases place m hx with ⟨hnone, -⟩ | ⟨-, ht⟩
      · exact absurd (hnone.symm.trans hpending) (by simp)
      · rw [ht]
        refine h.of_call hx hkeeps (fun q hq _ => hholders ▸ hq) (fun c hc => ?_)
          (fun hin => absurd hin hout) ?_ ?_ id
        · obtain rfl := Option.some.inj (hpending.symm.trans hc)
          exact hparkedAs
        · rcases hplace with hp | hp <;> simp [hp]
        · rcases hplace with hp | hp <;> simp [hp]
  | some c =>
    have hidle : ¬ s.machine.idle = true := by simp [Machine.idle, hc]
    rw [if_neg hidle] at hrun
    have hparked := h.seated.parked _ x c hx hc
    obtain rfl : c = .locking T.mutex .lockMutex := by
      rcases hplace with hp | hp <;> simpa [Philosopher.Parked, hp] using hparked
    obtain ⟨hkeeps, hnone, hholders⟩ :=
      step_resume_lock h.guarded.settled h.guarded.exclusive hc hrun
    rcases afterCall_cases place m hx with ⟨-, ht⟩ | ⟨⟨c, hc⟩, -⟩
    · rw [ht]
      exact hoccupied hnone hkeeps hholders
    · exact absurd (hnone.symm.trans hc) (by simp)

theorem Invariant.free (h : Invariant T s) (hx : s.philosophers s.machine.pid = some x)
    (hplace : x.place = .freeTake ∧ place = .wait ∨ x.place = .freePut ∧ place = .lockTake)
    (hrun : Sync.step s.machine (.freeMutex T.mutex) = some m) :
    Invariant T (s.afterCall x place m) := by
  have hin : x.Inside := by rcases hplace with hp | hp <;> simp [Philosopher.Inside, hp.1]
  obtain ⟨hkeeps, hnone, hholders⟩ := step_free h.guarded.settled h.guarded.exclusive
    (h.seated.inside _ x hx hin) hrun
  rcases afterCall_cases place m hx with ⟨-, ht⟩ | ⟨⟨c, hc⟩, -⟩
  · rw [ht]
    refine h.of_call hx hkeeps (fun q hq hne => ?_) (fun c hc => ?_) (fun hin' => ?_) ?_ ?_
      fun hf => ?_
    · rw [hholders]
      exact (List.mem_erase_of_ne hne).mpr hq
    · rw [hnone] at hc
      exact absurd hc (by simp)
    · rcases hplace with ⟨-, rfl⟩ | ⟨-, rfl⟩ <;> simp [Philosopher.Inside] at hin'
    · rcases hplace with ⟨-, rfl⟩ | ⟨-, rfl⟩ <;> simp
    · rcases hplace with ⟨-, rfl⟩ | ⟨-, rfl⟩ <;> simp
    · rcases hplace with ⟨hp, rfl⟩ | ⟨-, rfl⟩
      · exact Or.inr (Or.inl hp)
      · simp [Philosopher.Fed] at hf
  · exact absurd (hnone.symm.trans hc) (by simp)

theorem Invariant.signal (h : Invariant T s) (hx : s.philosophers s.machine.pid = some x)
    {call : Test} (hplace : x.place = .signal call) {j : ℤ}
    (hrun : Sync.step s.machine (.signal j) = some m) :
    Invariant T (s.afterCall x call.after m) := by
  obtain ⟨hkeeps, hholders⟩ := step_spares h.guarded.settled h.guarded.exclusive rfl hrun
  have hnone : m.pending s.machine.pid = none := by
    obtain ⟨hidle, hsignal⟩ := step_call hrun
    obtain ⟨hpending, -⟩ := signal_spec h.guarded.settled hsignal
    rw [hpending]
    exact Machine.pending_of_idle hidle
  have hin : x.Inside := by simp [Philosopher.Inside, hplace]
  rcases afterCall_cases call.after m hx with ⟨-, ht⟩ | ⟨⟨c, hc⟩, -⟩
  · rw [ht]
    refine h.of_call hx hkeeps (fun q hq _ => hholders ▸ hq) (fun c hc => ?_)
      (fun _ => hholders ▸ h.seated.inside _ x hx hin) ?_ ?_ fun hf => ?_
    · rw [hnone] at hc
      exact absurd hc (by simp)
    · cases call <;> simp [Test.after]
    · cases call <;> simp [Test.after]
    · cases call with
      | own => exact Or.inl hplace
      | left => simp [Philosopher.Fed, Test.after] at hf
      | right => simp [Philosopher.Fed, Test.after] at hf
  · exact absurd (hnone.symm.trans hc) (by simp)

/-- Whatever semaphore it is, the philosopher keeps its state while it waits. -/
theorem Invariant.wait (h : Invariant T s) (hx : s.philosophers s.machine.pid = some x)
    (hplace : x.place = .wait) {j : ℤ} (hrun : waitOn j garbage s.machine = some m) :
    Invariant T (s.afterCall x .lockPut m) := by
  have hboth : (KeepsMutex T.mutex s.machine.pid s.machine m ∧
      m.ledger.holders T.mutex = s.machine.ledger.holders T.mutex) ∧
      ∀ c, m.pending s.machine.pid = some c → c.spares T.mutex s.machine.kernel = true := by
    unfold waitOn at hrun
    cases hc : s.machine.pending s.machine.pid with
    | none =>
      have hidle : s.machine.idle = true := by rw [Machine.idle, hc]; rfl
      rw [if_pos hidle] at hrun
      have hspares : (Action.wait j garbage).spares T.mutex s.machine = true :=
        decide_eq_true (h.guarded.semaphores j)
      exact ⟨step_spares h.guarded.settled h.guarded.exclusive hspares hrun,
        wait_pending hspares hrun⟩
    | some c =>
      have hidle : ¬ s.machine.idle = true := by simp [Machine.idle, hc]
      rw [if_neg hidle] at hrun
      have hparked := h.seated.parked _ x c hx hc
      simp only [Philosopher.Parked, hplace] at hparked
      have hspares : (Action.resume garbage).spares T.mutex s.machine = true := by
        simpa [Action.spares, hc] using hparked
      exact ⟨step_spares h.guarded.settled h.guarded.exclusive hspares hrun,
        resume_pending hc hparked hrun⟩
  obtain ⟨⟨hkeeps, hholders⟩, hspares⟩ := hboth
  rcases afterCall_cases .lockPut m hx with ⟨hnone, ht⟩ | ⟨-, ht⟩
  · rw [ht]
    refine h.of_call hx hkeeps (fun q hq _ => hholders ▸ hq) (fun c hc => ?_) (fun hin => ?_)
      (by simp) (by simp) fun _ => Or.inr (Or.inr (Or.inl hplace))
    · rw [hnone] at hc
      exact absurd hc (by simp)
    · simp [Philosopher.Inside] at hin
  · rw [ht]
    refine h.of_call hx hkeeps (fun q hq _ => hholders ▸ hq) (fun c hc => ?_) (fun hin => ?_)
      (by simp [hplace]) (by simp [hplace]) id
    · simpa [Philosopher.Parked, hplace] using hspares c hc
    · simp [Philosopher.Inside, hplace] at hin

/-! ### The events -/

theorem Invariant.run (hn : 2 ≤ T.total) (h : Invariant T s)
    (hx : s.philosophers s.machine.pid = some x) (hfits : Fits T s garbage x x.place)
    (hrun : s.run T garbage x = some t) : Invariant T t := by
  cases hplace : x.place with
  | lockTake =>
    simp only [State.run, hplace] at hrun
    simp only [Fits, hplace] at hfits
    obtain ⟨m, hm, rfl⟩ := Option.map_eq_some_iff.mp hrun
    exact h.lock hx (Or.inl hplace) hfits (Or.inl rfl) hm
  | hungry =>
    simp only [State.run, hplace] at hrun
    rw [← Option.some.inj hrun]
    exact h.hungry hn hx hplace
  | test call =>
    simp only [State.run, hplace] at hrun
    rw [← Option.some.inj hrun]
    exact h.test hx hplace hfits
  | eat call =>
    simp only [State.run, hplace] at hrun
    rw [← Option.some.inj hrun]
    exact h.eat hn hx hplace
  | signal call =>
    simp only [State.run, hplace] at hrun
    obtain ⟨m, hm, rfl⟩ := Option.map_eq_some_iff.mp hrun
    exact h.signal hx hplace hm
  | freeTake =>
    simp only [State.run, hplace] at hrun
    obtain ⟨m, hm, rfl⟩ := Option.map_eq_some_iff.mp hrun
    exact h.free hx (Or.inl ⟨hplace, rfl⟩) hm
  | wait =>
    simp only [State.run, hplace] at hrun
    obtain ⟨m, hm, rfl⟩ := Option.map_eq_some_iff.mp hrun
    exact h.wait hx hplace hm
  | lockPut =>
    simp only [State.run, hplace] at hrun
    simp only [Fits, hplace] at hfits
    obtain ⟨m, hm, rfl⟩ := Option.map_eq_some_iff.mp hrun
    exact h.lock hx (Or.inr hplace) hfits (Or.inr rfl) hm
  | think =>
    simp only [State.run, hplace] at hrun
    rw [← Option.some.inj hrun]
    exact h.think hn hx hplace
  | freePut =>
    simp only [State.run, hplace] at hrun
    obtain ⟨m, hm, rfl⟩ := Option.map_eq_some_iff.mp hrun
    exact h.free hx (Or.inr ⟨hplace, rfl⟩) hm

/-- A step of the machine that is nothing to the philosophers. -/
theorem Invariant.of_machine (h : Invariant T s) {me : ℤ}
    (hkeeps : KeepsMutex T.mutex me s.machine m)
    (hholders : m.ledger.holders T.mutex = s.machine.ledger.holders T.mutex)
    (hpending : ∀ p x, s.philosophers p = some x → m.pending p = s.machine.pending p) :
    Invariant T { s with machine := m } := by
  refine ⟨h.guarded.of_step hkeeps rfl, ⟨fun p x hx => ?_, h.seated.value, h.seated.created,
    h.seated.unique, fun p x c hx hc => ?_, fun p x hx hin => ?_⟩,
    ⟨h.polite.hungry, h.polite.tested, h.polite.fed, h.polite.apart⟩⟩
  · exact (h.seated.range p x hx).trans_le hkeeps.count
  · have hc : m.pending p = some c := hc
    rw [hpending p x hx] at hc
    exact (h.seated.parked p x c hx hc).congr hkeeps.names
  · exact hholders ▸ h.seated.inside p x hx hin

theorem Invariant.other (h : Invariant T s) {action : Action}
    (hpermits : s.permits T action = true) (hrun : Sync.step s.machine action = some m) :
    Invariant T { s with machine := m } := by
  have hother : ((s.philosophers s.machine.pid).isNone && action.spares T.mutex s.machine) = true →
      Invariant T { s with machine := m } := fun hguard => by
    obtain ⟨hnone, hspares⟩ := Bool.and_eq_true_iff.mp hguard
    obtain ⟨hkeeps, hholders⟩ :=
      step_spares h.guarded.settled h.guarded.exclusive hspares hrun
    refine h.of_machine hkeeps hholders fun p x hx => hkeeps.pending p ?_
    rintro rfl
    simp [hx] at hnone
  cases action with
  | tick =>
    obtain ⟨hkeeps, hholders⟩ := step_spares h.guarded.settled h.guarded.exclusive rfl hrun
    refine h.of_machine hkeeps hholders fun p x _ => ?_
    simp only [Sync.step] at hrun
    split_ifs at hrun
    obtain ⟨k', -, rfl⟩ := Option.map_eq_some_iff.mp hrun
    rfl
  | _ => exact hother hpermits

/-- A new philosopher has a new process and a new number. -/
theorem Invariant.createProcess (h : Invariant T s) {page : ℕ}
    (hnone : s.philosophers s.machine.pid = none) (hlt : s.created < T.total)
    (hrun : s.createProcess page = some t) : Invariant T t := by
  obtain ⟨m, hm, rfl⟩ := Option.map_eq_some_iff.mp hrun
  obtain ⟨hkeeps, hholders⟩ := step_spares h.guarded.settled h.guarded.exclusive rfl hm
  have hbase := h.of_machine hkeeps hholders fun p x hx =>
    hkeeps.pending p (by rintro rfl; simp [hx] at hnone)
  simp only [Sync.step] at hm
  split_ifs at hm with hguard
  obtain rfl := Option.some.inj hm
  set p := s.machine.kernel.sched.pid with hp
  have hnew : ∀ x, s.philosophers p ≠ some x := fun x hx => lt_irrefl _ (h.seated.range p x hx)
  have hpending : s.machine.pending p = none := by
    cases hc : s.machine.pending p with
    | none => rfl
    | some c => exact absurd (h.guarded.settled.parked.range p c hc).2 (lt_irrefl _)
  have hcount : (s.machine.createProcess page).kernel.sched.pid = p + 1 :=
    pid_createProcess h.guarded.settled.parked.ring hguard.2
  have hcases : ∀ {q y}, Function.update s.philosophers p (some ⟨s.created, .lockTake⟩) q = some y →
      (q = p ∧ y = ⟨s.created, .lockTake⟩) ∨ (q ≠ p ∧ s.philosophers q = some y) :=
    fun {q y} hy => update_cases (t := ⟨s.machine, _, 0, s.state⟩) rfl hy
  refine ⟨⟨hbase.guarded.settled, hbase.guarded.exclusive, hbase.guarded.valid,
      hbase.guarded.semaphores⟩,
    ⟨fun q y hy => ?_, fun q y hy => ?_, hlt, fun q r y z hy hz hv => ?_,
      fun q y c hy hc => ?_, fun q y hy hin => ?_⟩,
    ⟨fun q y hy hplace => ?_, fun q y call hy hplace => ?_, fun q y hy hf => ?_,
      h.polite.apart⟩⟩
  · change q < (s.machine.createProcess page).kernel.sched.pid
    rw [hcount]
    rcases hcases hy with ⟨rfl, -⟩ | ⟨-, hy⟩
    · exact lt_add_one p
    · exact (h.seated.range q y hy).trans (lt_add_one p)
  · rcases hcases hy with ⟨-, rfl⟩ | ⟨-, hy⟩
    · exact Nat.lt_succ_self _
    · exact (h.seated.value q y hy).trans (Nat.lt_succ_self _)
  · rcases hcases hy with ⟨rfl, rfl⟩ | ⟨-, hy⟩
    · rcases hcases hz with ⟨rfl, -⟩ | ⟨-, hz⟩
      · rfl
      · exact absurd (h.seated.value r z hz) (hv ▸ lt_irrefl _)
    · rcases hcases hz with ⟨rfl, rfl⟩ | ⟨-, hz⟩
      · exact absurd (h.seated.value q y hy) (hv ▸ lt_irrefl _)
      · exact h.seated.unique q r y z hy hz hv
  · rcases hcases hy with ⟨rfl, -⟩ | ⟨-, hy⟩
    · exact absurd (hpending.symm.trans hc) (by simp)
    · exact hbase.seated.parked q y c hy hc
  · rcases hcases hy with ⟨-, rfl⟩ | ⟨-, hy⟩
    · exact absurd hin id
    · exact hbase.seated.inside q y hy hin
  · rcases hcases hy with ⟨-, rfl⟩ | ⟨-, hy⟩
    · exact absurd hplace (by simp)
    · exact h.polite.hungry q y hy hplace
  · rcases hcases hy with ⟨-, rfl⟩ | ⟨-, hy⟩
    · exact absurd hplace (by simp)
    · exact h.polite.tested q y call hy hplace
  · rcases hcases hy with ⟨-, rfl⟩ | ⟨-, hy⟩
    · simp [Philosopher.Fed] at hf
    · exact h.polite.fed q y hy hf

theorem step_invariant (hn : 2 ≤ T.total) {e : Event} (h : Invariant T s)
    (hfits : FitsStep T s e) (hstep : step T s e = some t) : Invariant T t := by
  cases e with
  | run garbage =>
    obtain ⟨x, hx, hrun⟩ := Option.bind_eq_some_iff.mp hstep
    exact h.run hn hx (hfits x hx) hrun
  | createProcess page =>
    simp only [step] at hstep
    split_ifs at hstep with hguard
    exact h.createProcess (Option.isNone_iff_eq_none.mp hguard.1) hguard.2 hstep
  | other action =>
    simp only [step] at hstep
    split_ifs at hstep with hpermits
    obtain ⟨m, hm, rfl⟩ := Option.map_eq_some_iff.mp hstep
    exact h.other hpermits hm

theorem IsStart.invariant (h : IsStart T s)
    (hapart : ∀ i < T.total, ¬ (s.state i = eating ∧ s.state ((i + 1) % T.total) = eating)) :
    Invariant T s := by
  have hnone : ∀ p x, s.philosophers p ≠ some x := fun p x hx => by simp [h.philosophers] at hx
  refine ⟨⟨reachable_settled h.machine, ⟨fun _ => ⟨h.holders, h.pending⟩,
      Or.inl ⟨h.holders, fun p q hp => ?_⟩⟩, h.valid, h.semaphores⟩,
    ⟨fun p x hx => absurd hx (hnone p x), fun p x hx => absurd hx (hnone p x), ?_,
      fun p q x y hx => absurd hx (hnone p x), fun p x c hx => absurd hx (hnone p x),
      fun p x hx => absurd hx (hnone p x)⟩,
    ⟨fun p x hx => absurd hx (hnone p x), fun p x call hx => absurd hx (hnone p x),
      fun p x hx => absurd hx (hnone p x), hapart⟩⟩
  · obtain ⟨⟨rest, hp⟩, -⟩ := hp
    exact absurd hp (h.pending p rest)
  · rw [h.created]
    exact Nat.zero_le _

/-! ### The result -/

/-- A philosopher whose `take_fork` has returned is eating, and no two neighbours are. -/
def TableLaw (T : Table) (s : State) : Prop :=
  (∀ p x, s.philosophers p = some x → x.place = .lockPut → s.state x.value = eating) ∧
    ∀ i < T.total, ¬ (s.state i = eating ∧ s.state ((i + 1) % T.total) = eating)

theorem Invariant.tableLaw (h : Invariant T s) : TableLaw T s :=
  ⟨fun p x hx hplace => h.polite.fed p x hx (Or.inr (Or.inr (Or.inr hplace))), h.polite.apart⟩

/-- In every run in which the array does not say at the start that neighbours eat, nobody waits for
the mutex when its queue is full, every call of `take_fork` finds the forks free, and `testP`
overlooks no neighbour that eats, the law of the table holds at every moment. -/
theorem tableLaw_of_fits (hn : 2 ≤ T.total) (hstart : IsStart T s)
    (hapart : ∀ i < T.total, ¬ (s.state i = eating ∧ s.state ((i + 1) % T.total) = eating))
    {es : List Event} (hpath : ((system T).restrict (FitsStep T)).Path s es t) :
    TableLaw T t := by
  refine (hpath.invariant (I := Invariant T) (fun s e t hs hstep => ?_)
    (hstart.invariant hapart)).tableLaw
  exact step_invariant hn hs hstep.1 hstep.2

end

/-! ### Runs -/

/-- The running process has called `getMutex` and `semCreate` for each of the philosophers. -/
def preparedMachine (n : ℕ) : Machine :=
  (execute Sync.step bootedMachine (createProcesses 1 ++ [.tick, .getMutex 2 0] ++
    (List.range n).map fun i => .semCreate (i + 3) 0 0)).getD bootedMachine

/-- The pointers are addresses behind the pages of the processes. -/
def tableOf (n : ℕ) : Table := ⟨n, 2, fun k => pageAt 20 + 32 * k⟩

def preparedState (n : ℕ) : State where
  machine := preparedMachine n
  philosophers := fun _ => none
  created := 0
  state := fun _ => thinking

theorem isStart_preparedState {n : ℕ} (hn : n = 2 ∨ n = 3) :
    IsStart (tableOf n) (preparedState n) := by
  have hreach : machineSystem.Reachable (preparedMachine n) := by
    have hsome : (execute Sync.step bootedMachine (createProcesses 1 ++ [.tick, .getMutex 2 0] ++
        (List.range n).map fun i => .semCreate (i + 3) 0 0)).isSome = true := by
      rcases hn with rfl | rfl <;> decide +kernel
    obtain ⟨m, hm⟩ := Option.isSome_iff_exists.mp hsome
    rw [preparedMachine, hm]
    exact reachable_of_execute IsBoot isBoot_bootedMachine hm
  have hcount : (preparedMachine n).kernel.sched.pid = 3 := by
    rcases hn with rfl | rfl <;> decide +kernel
  have hidle : ∀ p < 3, ((preparedMachine n).pending (p : ℕ)).isNone = true := by
    rcases hn with rfl | rfl <;> decide +kernel
  have hsemaphores : ∀ j < maxSemaphores,
      isValidSemaphore (j : ℕ) (preparedMachine n).kernel = true →
        ((preparedMachine n).kernel.semaphores (j : ℕ)).mutex ≠ 2 := by
    rcases hn with rfl | rfl <;> decide +kernel
  refine ⟨hreach, ?_, ?_, ?_, fun p rest hp => ?_, fun j h0 hj => ?_, fun _ => rfl, rfl⟩
  · rcases hn with rfl | rfl <;> decide +kernel
  · rcases hn with rfl | rfl <;> decide +kernel
  · rcases hn with rfl | rfl <;> decide +kernel
  · -- only processes that exist are suspended
    obtain ⟨h0, hlt⟩ := (reachable_settled hreach).parked.range p _ hp
    rw [hcount] at hlt
    obtain ⟨i, rfl⟩ := Int.eq_ofNat_of_zero_le h0
    have hnone := hidle i (by omega)
    have hp : (preparedMachine n).pending (i : ℕ) = _ := hp
    rw [hp] at hnone
    exact absurd hnone (by simp)
  · obtain ⟨i, rfl⟩ := Int.eq_ofNat_of_zero_le h0
    refine hsemaphores i ?_ hj
    by_contra hge
    have hout : isValidSemaphore (i : ℕ) (preparedState n).machine.kernel = false :=
      if_pos (by omega)
    rw [hj] at hout
    exact absurd hout (by simp)

/-- The philosophers 0 to `n - 1` become the processes 3 to `n + 2`; the last one runs. -/
def seatAll (n : ℕ) : List Event :=
  ((List.range n).map fun i => .createProcess (pageAt (i + 5))) ++ [.other .tick]

/-- Philosopher 1 of two eats and puts down the forks, and then philosopher 0 eats. -/
theorem tableLaw_of_fits_two : ∃ s t es, IsStart (tableOf 2) s ∧
    ((system (tableOf 2)).restrict (FitsStep (tableOf 2))).Path s es t ∧
    t.philosophers 3 = some ⟨0, .lockPut⟩ ∧ t.state 0 = eating ∧ TableLaw (tableOf 2) t := by
  have hstart : IsStart (tableOf 2) (preparedState 2) := isStart_preparedState (Or.inl rfl)
  have hrun : (execute (guarded (FitsStep (tableOf 2)) (step (tableOf 2))) (preparedState 2)
      (seatAll 2 ++ List.replicate 12 (.run 0) ++ [.other .tick] ++
        List.replicate 7 (.run 0))).map (fun s : State =>
      ((s.philosophers 3).map fun x => (x.value, x.place), s.state 0)) =
    some (some (0, .lockPut), eating) := by decide +kernel
  obtain ⟨t, ht, hview⟩ := Option.map_eq_some_iff.mp hrun
  obtain ⟨hplace, hstate⟩ := Prod.mk.inj hview
  have hpath := path_restrict_of_execute (IsStart (tableOf 2)) ht
  refine ⟨preparedState 2, t, _, hstart, hpath, ?_, hstate,
    tableLaw_of_fits (T := tableOf 2) le_rfl hstart (fun i _ h => ?_) hpath⟩
  · obtain ⟨⟨value, place⟩, hx, hv⟩ := Option.map_eq_some_iff.mp hplace
    obtain ⟨rfl, rfl⟩ := Prod.mk.inj hv
    exact hx
  · exact absurd h.1 (show thinking ≠ eating by decide)

/-- Two philosophers: philosopher 1 eats when `take_fork` returns to philosopher 0, which is hungry.
Three philosophers: 2 and 0 sit side by side and eat. -/
theorem hungry_after_take_fork :
    (∃ s, (system (tableOf 2)).Reachable s ∧ (∃ x, s.philosophers 3 = some x ∧
      x.place = .lockPut ∧ s.state x.value = hungry) ∧ ¬ TableLaw (tableOf 2) s) ∧
    ∃ s, (system (tableOf 3)).Reachable s ∧ s.state 2 = eating ∧ s.state ((2 + 1) % 3) = eating ∧
      ¬ TableLaw (tableOf 3) s := by
  constructor
  · obtain ⟨s, hpath, hview⟩ := exists_path_of_execute (IsStart (tableOf 2))
      (show (execute (step (tableOf 2)) (preparedState 2)
        (seatAll 2 ++ List.replicate 7 (.run 0) ++ [.other .tick] ++
          List.replicate 5 (.run 0))).map (fun s : State =>
        ((s.philosophers 3).map fun x => (x.value, x.place), s.state 0)) =
      some (some (0, .lockPut), hungry) by decide +kernel)
    obtain ⟨hplace, hstate⟩ := Prod.mk.inj hview
    obtain ⟨⟨value, place⟩, hx, hv⟩ := Option.map_eq_some_iff.mp hplace
    obtain ⟨rfl, rfl⟩ := Prod.mk.inj hv
    refine ⟨s, hpath.reachable (System.Reachable.start (isStart_preparedState (Or.inl rfl))),
      ⟨_, hx, rfl, hstate⟩, fun h => ?_⟩
    have hfed := h.1 3 _ hx rfl
    exact absurd (hstate.symm.trans hfed) (by decide)
  · obtain ⟨s, hpath, hview⟩ := exists_path_of_execute (IsStart (tableOf 3))
      (show (execute (step (tableOf 3)) (preparedState 3)
        (seatAll 3 ++ List.replicate 7 (.run 0) ++ [.other .tick, .other .tick] ++
          List.replicate 4 (.run 0))).map (fun s : State => (s.state 2, s.state 0)) =
      some (eating, eating) by decide +kernel)
    obtain ⟨h2, h0⟩ := Prod.mk.inj hview
    exact ⟨s, hpath.reachable (System.Reachable.start (isStart_preparedState (Or.inr rfl))), h2, h0,
      fun h => h.2 2 (by decide) ⟨h2, h0⟩⟩

end GatOS.Philosophers
