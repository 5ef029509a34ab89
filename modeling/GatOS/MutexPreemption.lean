import GatOS.QueuedMutex

/-!
# Preempting the calls on a mutex with a queue

`mutex_lock` and `mutex_unlock` statement by statement. Between two statements the timer can switch
to another process: `schedule` does not look at `superlock`.
-/
namespace GatOS.QueuedMutex
open Scheduler Transition

/-- The next statement of a process that is in a call. `unset`, `yield` and `woken` are the end of
`mutex_lock` for a process that found the mutex locked, `leave` is the last statement of the other
calls. From `checkDead` on, `mutex_unlock` has a value in `p`. -/
inductive Statement
  | testAndSet (key : ℤ)
  | enqueue (key : ℤ)
  | block (key : ℤ)
  | unset (key : ℤ)
  | yield (key : ℤ)
  | woken (key : ℤ)
  | dequeue (key : ℤ)
  | checkDead (key : ℤ) (p : ℕ)
  | release (key : ℤ) (p : ℕ)
  | wake (key : ℤ) (p : ℕ)
  | relock (key : ℤ)
  | leave
  deriving DecidableEq

/-- `next` is the next statement of each process; a process in no call has none. -/
structure Calls where
  machine : Machine
  next : ℕ → Option Statement

namespace Calls

def current (s : Calls) : ℕ := s.machine.sched.current

/-- The running process goes on with another statement. -/
def goto (s : Calls) (machine : Machine) (st : Option Statement) : Calls :=
  ⟨machine, Function.update s.next s.current st⟩

/-- The running process calls `mutex_lock` or `mutex_unlock`. -/
def call (s : Calls) (key : ℤ) (first : Statement) : Calls :=
  if isOpen key s.machine then s.goto (setSuperlock s.machine) (some first) else s

/-- `node` is what `allocPage` returns to `enqueue`. -/
def run (s : Calls) (node : ℕ) : Statement → Option Calls
  | .testAndSet key =>
    let m := s.machine.setLocked key locked
    if (s.machine.openMutexes key).locked = locked then some (s.goto m (some (.enqueue key)))
    else some (s.goto m (some .leave))
  | .enqueue key =>
    some (s.goto (queueProcess key node s.current s.machine) (some (.block key)))
  | .block key =>
    some (s.goto (s.machine.changeProcessState s.current .blocked) (some (.unset key)))
  | .unset key => some (s.goto (unsetSuperlock s.machine) (some (.yield key)))
  | .yield key => s.machine.yield.map fun m => s.goto m (some (.woken key))
  | .woken _ => some (s.goto s.machine none)
  | .dequeue key =>
    let (p, m) := dequeueProcess key s.machine
    some (s.goto m (some (.checkDead key p)))
  | .checkDead key p =>
    if (s.machine.sched.processOf p).state = .dead then
      some (s.goto s.machine (some (.dequeue key)))
    else some (s.goto s.machine (some (.release key p)))
  | .release key p => some (s.goto (s.machine.setLocked key unlocked) (some (.wake key p)))
  | .wake key p =>
    if p ≠ null then some (s.goto (s.machine.changeProcessState p .ready) (some (.relock key)))
    else some (s.goto s.machine (some .leave))
  | .relock key => some (s.goto (s.machine.setLocked key locked) (some .leave))
  | .leave => some (s.goto (unsetSuperlock s.machine) none)

end Calls

inductive Event
  | mutexLock (key : ℤ)
  | mutexUnlock (key : ℤ)
  | run (node : ℕ)
  | tick
  | createProcess (page : ℕ)

/-- A process that is in a call finishes it before it makes the next one. -/
def callsStep (s : Calls) : Event → Option Calls
  | .mutexLock key =>
    if s.next s.current = none then some (s.call key (.testAndSet key)) else none
  | .mutexUnlock key =>
    if s.next s.current = none then some (s.call key (.dequeue key)) else none
  | .run node => (s.next s.current).bind (s.run node)
  | .tick => s.machine.yield.map fun m => { s with machine := m }
  | .createProcess page =>
    if FreshPage s.machine.sched page then
      some { s with machine :=
        { s.machine with sched := (Scheduler.createProcess page s.machine.sched).2 } }
    else none

/-- The mutexes that are open have just been opened. -/
def IsFresh (s : Calls) : Prop :=
  IsStart { s.machine with openMutexes := (boot s.machine.sched).openMutexes } ∧
    (∀ key, s.machine.waiting key = [] ∧
      (isOpen key s.machine → (s.machine.openMutexes key).locked = unlocked)) ∧
    ∀ a, s.next a = none

def callsSystem : System Calls Event := ofStep IsFresh callsStep

/-! ### What the statements mean for the waiting processes -/

/-- A process that found the mutex locked and has blocked itself. -/
def Sleeping (st : Option Statement) (key : ℤ) : Prop :=
  st = some (.unset key) ∨ st = some (.yield key) ∨ st = some (.woken key)

/-- A call of `mutex_unlock` that has taken `p` out of the queue and not made it ready. -/
def Wakes (st : Option Statement) (key : ℤ) (p : ℕ) : Prop :=
  st = some (.checkDead key p) ∨ st = some (.release key p) ∨ st = some (.wake key p)

/-- A call of `mutex_unlock` that is going to lock the mutex again for another process. -/
def Relocks (st : Option Statement) (key : ℤ) : Prop :=
  st = some (.relock key) ∨ ∃ p, p ≠ null ∧ st = some (.wake key p)

/-- A call of `mutex_unlock` that has found nobody in the queue and not unlocked the mutex. -/
def FoundNobody (st : Option Statement) (key : ℤ) : Prop :=
  st = some (.checkDead key null) ∨ st = some (.release key null)

/-- The blocked processes are in the queue or are about to be woken, and a mutex with a queue is
locked or about to be. -/
structure Wakeups (next : ℕ → Option Statement) (waiting : ℤ → List ℕ) (lock : ℤ → ℤ)
    (blocked : ℕ → Prop) : Prop where
  atBlock : ∀ a key, next a = some (.block key) → a ∈ waiting key
  asleep : ∀ a, blocked a → ∃ key, Sleeping (next a) key ∧
    (a ∈ waiting key ∨ ∃ b, Wakes (next b) key a)
  nobody : ∀ a key, FoundNobody (next a) key →
    waiting key = [] ∧ ∀ b, next b ≠ some (.enqueue key)
  queued : ∀ key, (waiting key ≠ [] ∨ ∃ a, next a = some (.enqueue key)) →
    lock key = locked ∨ ∃ b, Relocks (next b) key

section

variable {next : ℕ → Option Statement} {waiting w : ℤ → List ℕ} {lock l : ℤ → ℤ}
  {blocked blocked' : ℕ → Prop} {c : ℕ} {key : ℤ} {n : Option Statement}

/-- What another process is about to do stays as it is. -/
theorem exists_update {P : Option Statement → Prop} (h : ∃ b, P (next b)) (hc : P (next c) → P n) :
    ∃ b, P (Function.update next c n b) := by
  obtain ⟨b, hb⟩ := h
  by_cases hbc : b = c
  · subst hbc
    exact ⟨b, by simpa using hc hb⟩
  · exact ⟨b, by simpa [hbc] using hb⟩

/-- One process goes on with another statement, and nothing else changes. -/
theorem Wakeups.goto (h : Wakeups next waiting lock blocked)
    (hblock : ∀ key, n = some (.block key) → c ∈ waiting key)
    (hsleep : blocked c → ∀ key, Sleeping (next c) key → Sleeping n key)
    (hwakes : ∀ key p, Wakes (next c) key p → blocked p → Wakes n key p)
    (hnobody : ∀ key, FoundNobody n key → waiting key = [] ∧ ∀ b, next b ≠ some (.enqueue key))
    (henqueue : ∀ key, n = some (.enqueue key) →
      lock key = locked ∧ ∀ a, ¬ FoundNobody (next a) key)
    (hrelocks : ∀ key, Relocks (next c) key → lock key = locked ∨ Relocks n key) :
    Wakeups (Function.update next c n) waiting lock blocked := by
  refine ⟨fun a key ha => ?_, fun a ha => ?_, fun a key ha => ?_, fun key hq => ?_⟩
  · by_cases hac : a = c
    · subst hac
      exact hblock key (by simpa using ha)
    · exact h.atBlock a key (by simpa [hac] using ha)
  · obtain ⟨key, hs, hw⟩ := h.asleep a ha
    refine ⟨key, ?_, hw.imp_right fun hb =>
      exists_update (P := fun n => Wakes n key a) hb fun hc => hwakes key a hc ha⟩
    by_cases hac : a = c
    · subst hac
      simpa using hsleep ha key hs
    · simpa [hac] using hs
  · -- a call that has found nobody excludes a process at `enqueue`
    have hold : waiting key = [] ∧ ∀ b, next b ≠ some (.enqueue key) := by
      by_cases hac : a = c
      · subst hac
        exact hnobody key (by simpa using ha)
      · exact h.nobody a key (by simpa [hac] using ha)
    refine ⟨hold.1, fun b hb => ?_⟩
    by_cases hbc : b = c
    · subst hbc
      have hst : n = some (.enqueue key) := by simpa using hb
      by_cases hac : a = b
      · subst hac
        rw [Function.update_self, hst] at ha
        rcases ha with ha | ha <;> simp at ha
      · exact (henqueue key hst).2 a (by simpa [hac] using ha)
    · exact hold.2 b (by simpa [hbc] using hb)
  · by_cases hst : n = some (.enqueue key)
    · exact Or.inl (henqueue key hst).1
    have hold : waiting key ≠ [] ∨ ∃ a, next a = some (.enqueue key) := by
      refine hq.imp_right fun ⟨a, ha⟩ => ⟨a, ?_⟩
      by_cases hac : a = c
      · subst hac
        exact absurd (by simpa using ha) hst
      · simpa [hac] using ha
    rcases h.queued key hold with hlock | ⟨b, hb⟩
    · exact Or.inl hlock
    · by_cases hbc : b = c
      · subst hbc
        exact (hrelocks key hb).imp_right fun hr => ⟨b, by simpa using hr⟩
      · exact Or.inr ⟨b, by simpa [hbc] using hb⟩

/-- Locking mutexes and waking processes does no harm. -/
theorem Wakeups.mono (h : Wakeups next waiting lock blocked)
    (hw : ∀ key, w key = waiting key)
    (hlock : ∀ key, lock key = locked → l key = locked)
    (hblocked : ∀ a, blocked' a → blocked a) : Wakeups next w l blocked' := by
  obtain rfl : w = waiting := funext hw
  exact ⟨h.atBlock, fun a ha => h.asleep a (hblocked a ha), h.nobody, fun key hq =>
    (h.queued key hq).imp_left (hlock key)⟩

theorem Wakeups.enqueue (h : Wakeups next waiting lock blocked) (hc : next c = some (.enqueue key))
    (hkey : w key = waiting key ++ [c]) (hother : ∀ k, k ≠ key → w k = waiting k) :
    Wakeups next w lock blocked := by
  have hsub : ∀ k a, a ∈ waiting k → a ∈ w k := fun k a ha => by
    by_cases hk : k = key
    · subst hk
      rw [hkey]
      exact List.mem_append_left _ ha
    · rwa [hother k hk]
  refine ⟨fun a k ha => hsub k a (h.atBlock a k ha), fun a ha => ?_, fun a k ha => ?_,
    fun k hq => ?_⟩
  · obtain ⟨k, hs, hw⟩ := h.asleep a ha
    exact ⟨k, hs, hw.imp_left (hsub k a)⟩
  · obtain ⟨hw, hno⟩ := h.nobody a k ha
    have hk : k ≠ key := by
      rintro rfl
      exact hno c hc
    exact ⟨(hother k hk).trans hw, hno⟩
  · by_cases hk : k = key
    · subst hk
      exact h.queued k (Or.inr ⟨c, hc⟩)
    · rw [hother k hk] at hq
      exact h.queued k hq

theorem Wakeups.dequeue (h : Wakeups next waiting lock blocked) {p : ℕ} {rest : List ℕ}
    (hw : waiting key = p :: rest) (hp : next p ≠ some (.block key))
    (hwakes : ∃ b, Wakes (next b) key p) (hkey : w key = rest)
    (hother : ∀ k, k ≠ key → w k = waiting k) : Wakeups next w lock blocked := by
  refine ⟨fun a k ha => ?_, fun a ha => ?_, fun a k ha => ?_, fun k hq => ?_⟩
  · by_cases hk : k = key
    · subst hk
      have hmem := h.atBlock a k ha
      rw [hw, List.mem_cons] at hmem
      rw [hkey]
      refine hmem.resolve_left ?_
      rintro rfl
      exact hp ha
    · rw [hother k hk]
      exact h.atBlock a k ha
  · obtain ⟨k, hs, ha'⟩ := h.asleep a ha
    refine ⟨k, hs, ?_⟩
    by_cases hk : k = key
    · subst hk
      rw [hw, List.mem_cons] at ha'
      rw [hkey]
      rcases ha' with (rfl | hmem) | hb
      · exact Or.inr hwakes
      · exact Or.inl hmem
      · exact Or.inr hb
    · rwa [hother k hk]
  · obtain ⟨hempty, hno⟩ := h.nobody a k ha
    have hk : k ≠ key := by
      rintro rfl
      rw [hw] at hempty
      exact List.cons_ne_nil _ _ hempty
    exact ⟨(hother k hk).trans hempty, hno⟩
  · by_cases hk : k = key
    · subst hk
      exact h.queued k (Or.inl (by rw [hw]; exact List.cons_ne_nil _ _))
    · rw [hother k hk] at hq
      exact h.queued k hq

/-- A process that has blocked itself is in the queue. -/
theorem Wakeups.block (h : Wakeups next waiting lock blocked) (hc : Sleeping (next c) key)
    (hw : c ∈ waiting key) (hblocked : ∀ a, blocked' a → a = c ∨ blocked a) :
    Wakeups next waiting lock blocked' := by
  refine ⟨h.atBlock, fun a ha => ?_, h.nobody, h.queued⟩
  rcases hblocked a ha with rfl | hb
  · exact ⟨key, hc, Or.inl hw⟩
  · exact h.asleep a hb

/-- A mutex can be unlocked when nobody is in the queue, or when it is locked again soon. -/
theorem Wakeups.release (h : Wakeups next waiting lock blocked)
    (hkey : (waiting key = [] ∧ ∀ b, next b ≠ some (.enqueue key)) ∨ ∃ b, Relocks (next b) key)
    (hother : ∀ k, k ≠ key → l k = lock k) : Wakeups next waiting l blocked := by
  refine ⟨h.atBlock, h.asleep, h.nobody, fun k hq => ?_⟩
  by_cases hk : k = key
  · subst hk
    rcases hkey with ⟨hempty, hno⟩ | hrelocks
    · rcases hq with hne | ⟨a, ha⟩
      · exact absurd hempty hne
      · exact absurd ha (hno a)
    · exact Or.inr hrelocks
  · rw [hother k hk]
    exact h.queued k hq

end

/-! ### The processes in the calls -/

/-- The processes that are in calls, in queues, or about to be woken, are in the ring. -/
structure Placed (s : Calls) : Prop where
  isRing : RingInvariant s.machine.sched
  inRing : ∀ a, s.next a ≠ none → a ∈ ring s.machine.sched
  queued : ∀ key, ∀ p ∈ s.machine.waiting key, p ∈ ring s.machine.sched
  woken : ∀ a key p, Wakes (s.next a) key p → p ≠ null → p ∈ ring s.machine.sched

section

variable {s t : Calls} {m : Machine} {st : Option Statement} {key : ℤ}

theorem Placed.current_mem (h : Placed s) : s.current ∈ ring s.machine.sched :=
  RingInvariant.current_mem h.isRing

theorem Placed.goto (h : Placed s) (hring : RingInvariant m.sched)
    (hmem : ∀ a, a ∈ ring m.sched ↔ a ∈ ring s.machine.sched)
    (hw : ∀ key, ∀ p ∈ m.waiting key, p ∈ s.machine.waiting key ∨ p = s.current)
    (hst : ∀ key p, Wakes st key p → p ≠ null → p ∈ ring s.machine.sched) :
    Placed (s.goto m st) := by
  refine ⟨hring, fun a ha => (hmem a).mpr ?_, fun key p hp => (hmem p).mpr ?_,
    fun a key p hwakes hp => (hmem p).mpr ?_⟩
  · by_cases hac : a = s.current
    · rw [hac]
      exact h.current_mem
    · exact h.inRing a (by simpa [Calls.goto, hac] using ha)
  · rcases hw key p hp with hold | rfl
    · exact h.queued key p hold
    · exact h.current_mem
  · by_cases hac : a = s.current
    · subst hac
      exact hst key p (by simpa [Calls.goto] using hwakes) hp
    · exact h.woken a key p (by simpa [Calls.goto, hac] using hwakes) hp

/-- Nothing changes but the statement and the locks. -/
theorem Placed.goto_same (h : Placed s) (hsched : m.sched = s.machine.sched)
    (hw : ∀ key, m.waiting key ⊆ s.machine.waiting key)
    (hst : ∀ key p, Wakes st key p → p ≠ null → p ∈ ring s.machine.sched) :
    Placed (s.goto m st) :=
  h.goto (hsched ▸ h.isRing) (fun a => by rw [hsched]) (fun key p hp => Or.inl (hw key hp)) hst

theorem Placed.goto_changeProcessState (h : Placed s) (p : ℕ) (state : ProcessState)
    (hst : ∀ key p, ¬ Wakes st key p) :
    Placed (s.goto (s.machine.changeProcessState p state) st) :=
  h.goto (changeProcessState_spec h.isRing _ state).1
    (fun a => by rw [Machine.changeProcessState, ring_changeProcessState h.isRing])
    (fun _ _ hp => Or.inl hp) fun key p hw => absurd hw (hst key p)

theorem Placed.yield (h : Placed s) (hy : s.machine.yield = some m) :
    Placed { s with machine := m } := by
  obtain ⟨sched, hs, rfl⟩ := Option.map_eq_some_iff.mp hy
  rw [Scheduler.yield, if_neg (RingInvariant.current_ne_null h.isRing)] at hs
  have hmem := (schedule_slots h.isRing hs).1
  exact ⟨(h.isRing.schedule hs).1, fun a ha => (hmem a).mpr (h.inRing a ha),
    fun key p hp => (hmem p).mpr (h.queued key p hp),
    fun a key p hw hp => (hmem p).mpr (h.woken a key p hw hp)⟩

/-- The process that is taken from a queue is one of the ring. -/
theorem Placed.dequeued_mem (h : Placed s) (key : ℤ)
    (hp : (dequeueProcess key s.machine).1 ≠ null) :
    (dequeueProcess key s.machine).1 ∈ ring s.machine.sched := by
  cases hwait : s.machine.waiting key with
  | nil =>
    rw [dequeueProcess_nil hwait] at hp
    exact absurd rfl hp
  | cons q rest =>
    obtain ⟨q', hq', -⟩ := dequeueProcess_cons hwait
    rw [hq']
    exact h.queued key q (by rw [hwait]; exact List.mem_cons_self)

theorem Placed.run (h : Placed s) {node : ℕ} {st : Statement} (hst : s.next s.current = some st)
    (ht : s.run node st = some t) : Placed t := by
  cases st with
  | testAndSet key =>
    simp only [Calls.run] at ht
    split_ifs at ht
    · rw [← Option.some.inj ht]
      exact h.goto_same rfl (fun k => by simp) (by simp [Wakes])
    · rw [← Option.some.inj ht]
      exact h.goto_same rfl (fun k => by simp) (by simp [Wakes])
  | enqueue key =>
    rw [← Option.some.inj ht]
    obtain ⟨hring, heq⟩ := ring_queueProcess h.isRing key node s.current
    exact h.goto hring (fun a => by rw [heq]) (fun k p hp => mem_waiting_queueProcess hp)
      (by simp [Wakes])
  | block key =>
    rw [← Option.some.inj ht]
    exact h.goto_changeProcessState _ .blocked (by simp [Wakes])
  | unset key =>
    rw [← Option.some.inj ht]
    exact h.goto_same rfl (fun k => List.Subset.refl _) (by simp [Wakes])
  | yield key =>
    obtain ⟨m, hm, rfl⟩ := Option.map_eq_some_iff.mp ht
    have hgoto : Placed (s.goto s.machine (some (.woken key))) :=
      h.goto_same rfl (fun k => List.Subset.refl _) (by simp [Wakes])
    exact hgoto.yield hm
  | woken key =>
    rw [← Option.some.inj ht]
    exact h.goto_same rfl (fun k => List.Subset.refl _) (by simp [Wakes])
  | dequeue key =>
    rw [← Option.some.inj ht]
    have hfewer := fewer_dequeueProcess key s.machine
    refine h.goto_same hfewer.sched hfewer.waiting fun k p hw hp => ?_
    obtain ⟨rfl, rfl⟩ : key = k ∧ (dequeueProcess key s.machine).1 = p := by
      rcases hw with hw | hw | hw
      · exact Statement.checkDead.inj (Option.some.inj hw)
      · cases hw
      · cases hw
    exact h.dequeued_mem key hp
  | checkDead key p =>
    have hp := h.woken s.current key p (by rw [hst]; exact Or.inl rfl)
    simp only [Calls.run] at ht
    split_ifs at ht
    · rw [← Option.some.inj ht]
      exact h.goto_same rfl (fun k => List.Subset.refl _) (by simp [Wakes])
    · rw [← Option.some.inj ht]
      refine h.goto_same rfl (fun k => List.Subset.refl _) fun k q hw hq => ?_
      obtain ⟨-, rfl⟩ : key = k ∧ p = q := by simpa [Wakes] using hw
      exact hp hq
  | release key p =>
    have hp := h.woken s.current key p (by rw [hst]; exact Or.inr (Or.inl rfl))
    rw [← Option.some.inj ht]
    refine h.goto_same rfl (fun k => by simp) fun k q hw hq => ?_
    obtain ⟨-, rfl⟩ : key = k ∧ p = q := by simpa [Wakes] using hw
    exact hp hq
  | wake key p =>
    simp only [Calls.run] at ht
    split_ifs at ht
    · rw [← Option.some.inj ht]
      exact h.goto_changeProcessState _ .ready (by simp [Wakes])
    · rw [← Option.some.inj ht]
      exact h.goto_same rfl (fun k => List.Subset.refl _) (by simp [Wakes])
  | relock key =>
    rw [← Option.some.inj ht]
    exact h.goto_same rfl (fun k => by simp) (by simp [Wakes])
  | leave =>
    rw [← Option.some.inj ht]
    exact h.goto_same rfl (fun k => List.Subset.refl _) (by simp [Wakes])

theorem Placed.call (h : Placed s) {first : Statement} (hst : ∀ key p, ¬ Wakes (some first) key p) :
    Placed (s.call key first) := by
  unfold Calls.call
  split_ifs
  · exact h.goto_same rfl (fun k => List.Subset.refl _) fun k p hw => absurd hw (hst k p)
  · exact h

theorem Placed.step (h : Placed s) {e : Event} (ht : callsStep s e = some t) : Placed t := by
  cases e with
  | mutexLock key =>
    simp only [callsStep] at ht
    split_ifs at ht
    rw [← Option.some.inj ht]
    exact h.call (by simp [Wakes])
  | mutexUnlock key =>
    simp only [callsStep] at ht
    split_ifs at ht
    rw [← Option.some.inj ht]
    exact h.call (by simp [Wakes])
  | run node =>
    obtain ⟨st, hst, hrun⟩ := Option.bind_eq_some_iff.mp ht
    exact h.run hst hrun
  | tick =>
    obtain ⟨m, hm, rfl⟩ := Option.map_eq_some_iff.mp ht
    exact h.yield hm
  | createProcess page =>
    simp only [callsStep] at ht
    split_ifs at ht with hpage
    rw [← Option.some.inj ht]
    have hmem := (createProcess_slots h.isRing hpage).1
    exact ⟨(h.isRing.createProcess hpage).1, fun a ha => (hmem a).mpr (Or.inr (h.inRing a ha)),
      fun key p hp => (hmem p).mpr (Or.inr (h.queued key p hp)),
      fun a key p hw hp => (hmem p).mpr (Or.inr (h.woken a key p hw hp))⟩

theorem placed_start (h : IsFresh s) : Placed s := by
  obtain ⟨⟨slot, page, hpage, hs⟩, hfresh, hnone⟩ := h
  have hsched : s.machine.sched = (Scheduler.createProcess page (Scheduler.boot slot)).2 :=
    congrArg Machine.sched hs
  refine ⟨?_, fun a ha => absurd (hnone a) ha, fun key p hp => ?_, fun a key p hw => ?_⟩
  · rw [hsched]
    exact (historyInvariant_start ⟨slot, page, hpage, rfl⟩).ring
  · rw [(hfresh key).1] at hp
    exact absurd hp List.not_mem_nil
  · rw [hnone a] at hw
    simp [Wakes] at hw

theorem reachable_placed (h : callsSystem.Reachable s) : Placed s :=
  h.invariant (I := Placed) (fun _ hs => placed_start hs) fun _ _ _ hinv ht => hinv.step ht

end

/-! ### The windows -/

instance (st : Option Statement) (key : ℤ) : Decidable (FoundNobody st key) :=
  inferInstanceAs (Decidable (_ ∨ _))

/-- The statement does not meet another process in one of its windows: `mutex_unlock` looks at the
queue while a process is between the failed test and the queue, or finds one that has not blocked
itself yet; and the test fails while `mutex_unlock`, which has found nobody, has not unlocked the
mutex yet. A queue and its nodes need memory. -/
def Undisturbed (s : Calls) (node : ℕ) : Statement → Prop
  | .testAndSet key => (s.machine.openMutexes key).locked = locked →
      ∀ a ∈ ring s.machine.sched, ¬ FoundNobody (s.next a) key
  | .enqueue key => node ≠ null ∧ (s.machine.openMutexes key).processQueue.isSome
  | .dequeue key =>
    (s.machine.waiting key = [] →
      ∀ a ∈ ring s.machine.sched, s.next a ≠ some (.enqueue key)) ∧
    ∀ p ∈ (s.machine.waiting key).head?, s.next p ≠ some (.block key)
  | _ => True

instance (s : Calls) (node : ℕ) (st : Statement) : Decidable (Undisturbed s node st) := by
  cases st <;> unfold Undisturbed <;> infer_instance

def Event.Undisturbed (s : Calls) : Event → Prop
  | .run node => ∀ st ∈ s.next s.current, QueuedMutex.Undisturbed s node st
  | _ => True

instance (s : Calls) (e : Event) : Decidable (e.Undisturbed s) := by
  cases e <;> unfold Event.Undisturbed <;> infer_instance

/-- The blocked processes are in the queue of the mutex that they wait for or are about to be
woken, and a mutex with a queue is locked or about to be. -/
structure NoneLost (s : Calls) : Prop where
  asleep : ∀ a, BlockedSlot s.machine.sched a → ∃ key, Sleeping (s.next a) key ∧
    (a ∈ s.machine.waiting key ∨ ∃ b, Wakes (s.next b) key a)
  queued : ∀ key, s.machine.waiting key ≠ [] →
    (s.machine.openMutexes key).locked = locked ∨ ∃ b, Relocks (s.next b) key

/-- The queues with elements know their last node. -/
def Linked (m : Machine) : Prop :=
  ∀ key q, (m.openMutexes key).processQueue = some q → q.elems ≠ [] → q.linked

/-- Only a process that is about to give up the processor is blocked while it runs. -/
def Awake (s : Calls) : Prop :=
  BlockedSlot s.machine.sched s.current →
    ∃ key, s.next s.current = some (.unset key) ∨ s.next s.current = some (.yield key)

structure CallsInvariant (s : Calls) : Prop where
  placed : Placed s
  linked : Linked s.machine
  awake : Awake s
  wakeups : Wakeups s.next (fun key => s.machine.waiting key)
    (fun key => (s.machine.openMutexes key).locked) (BlockedSlot s.machine.sched)

section

variable {s t : Calls} {m m' : Machine} {st : Statement} {key : ℤ} {node : ℕ}

/-! ### The queues -/

theorem Linked.setMutex (h : Linked m) {mutex : MutexType}
    (hq : ∀ q, mutex.processQueue = some q → q.elems ≠ [] → q.linked) :
    Linked (m.setMutex key mutex) := by
  intro k q hk
  by_cases hkey : k = key
  · subst hkey
    exact hq q (by simpa [Machine.setMutex] using hk)
  · exact h k q (by simpa [Machine.setMutex, hkey] using hk)

theorem Linked.setLocked (h : Linked m) (lock : ℤ) : Linked (m.setLocked key lock) :=
  h.setMutex (h key)

theorem Linked.dequeueProcess (h : Linked m) : Linked (dequeueProcess key m).2 := by
  refine h.setMutex fun q hq hne => ?_
  have hold := h key
  cases hp : (m.openMutexes key).processQueue with
  | none =>
    rw [hp] at hq
    simp at hq
  | some q' =>
    obtain ⟨elems, linked⟩ := q'
    rw [hp] at hq hold
    cases elems with
    | nil =>
      obtain rfl := Option.some.inj hq
      exact absurd rfl hne
    | cons p rest =>
      obtain rfl := Option.some.inj hq
      exact hold ⟨p :: rest, linked⟩ rfl (List.cons_ne_nil p rest)

/-- A process is put at the end of the queue. -/
theorem queueProcess_spec (h : Linked m) (hnode : node ≠ null)
    (hq : (m.openMutexes key).processQueue.isSome) (p : ℕ) :
    ∃ q, queueProcess key node p m = m.setQueue key (some q) ∧
      q.elems = m.waiting key ++ [p] ∧ q.linked := by
  obtain ⟨q, hq⟩ := Option.isSome_iff_exists.mp hq
  refine ⟨enqueue node p q, ?_, ?_⟩
  · rw [queueProcess, hq]
    simp [hnode]
  · have hw : m.waiting key = q.elems := by simp [Machine.waiting, hq]
    have hlinked := h key q hq
    unfold enqueue
    split_ifs with hempty
    · simp [hw, hempty]
    · simp [hw, hlinked hempty]
    · exact absurd (hlinked hempty) ‹_›

theorem Linked.run (h : Linked s.machine) (hok : Undisturbed s node st)
    (ht : s.run node st = some t) : Linked t.machine := by
  cases st with
  | testAndSet key =>
    simp only [Calls.run] at ht
    split_ifs at ht
    · rw [← Option.some.inj ht]
      exact h.setLocked locked
    · rw [← Option.some.inj ht]
      exact h.setLocked locked
  | enqueue key =>
    rw [← Option.some.inj ht]
    obtain ⟨q, hq, -, hlinked⟩ := queueProcess_spec h hok.1 hok.2 s.current
    show Linked (queueProcess key node s.current s.machine)
    rw [hq]
    refine h.setMutex fun q' hq' _ => ?_
    rw [← Option.some.inj hq']
    exact hlinked
  | yield key =>
    obtain ⟨m, hm, rfl⟩ := Option.map_eq_some_iff.mp ht
    obtain ⟨sched, -, rfl⟩ := Option.map_eq_some_iff.mp hm
    exact h
  | dequeue key =>
    rw [← Option.some.inj ht]
    exact h.dequeueProcess
  | checkDead key p =>
    simp only [Calls.run] at ht
    split_ifs at ht <;> rw [← Option.some.inj ht] <;> exact h
  | wake key p =>
    simp only [Calls.run] at ht
    split_ifs at ht <;> rw [← Option.some.inj ht] <;> exact h
  | release key p =>
    rw [← Option.some.inj ht]
    exact h.setLocked unlocked
  | relock key =>
    rw [← Option.some.inj ht]
    exact h.setLocked locked
  | block key | unset key | woken key | leave =>
    rw [← Option.some.inj ht]
    exact h

/-! ### What the statements do to the view -/

theorem locked_setLocked (lock k : ℤ) : ((m.setLocked key lock).openMutexes k).locked =
    if k = key then lock else (m.openMutexes k).locked := by
  by_cases hk : k = key
  · subst hk
    simp
  · simp [Machine.setLocked, Machine.setMutex, hk]

theorem locked_setQueue (q : Option Queue) (k : ℤ) :
    ((m.setQueue key q).openMutexes k).locked = (m.openMutexes k).locked := by
  by_cases hk : k = key
  · subst hk
    simp [Machine.setQueue, Machine.setMutex]
  · simp [Machine.setQueue, Machine.setMutex, hk]

theorem blockedSlot_changeProcessState {sched : State} (h : RingInvariant sched) {p : ℕ}
    (hp : p ∈ ring sched) (state : ProcessState) (a : ℕ) :
    BlockedSlot (changeProcessState (sched.processOf p).pid state sched) a ↔
      if a = p then state = .blocked else BlockedSlot sched a := by
  rw [BlockedSlot, ring_changeProcessState h, processOf_changeProcessState_slot h hp]
  split_ifs with ha
  · subst ha
    simp [hp]
  · exact Iff.rfl

theorem yield_spec (h : RingInvariant m.sched) (hy : m.yield = some m') :
    m'.openMutexes = m.openMutexes ∧ (∀ a, BlockedSlot m'.sched a ↔ BlockedSlot m.sched a) ∧
      ¬ BlockedSlot m'.sched m'.sched.current := by
  obtain ⟨sched, hs, rfl⟩ := Option.map_eq_some_iff.mp hy
  rw [Scheduler.yield, if_neg h.current_ne_null] at hs
  obtain ⟨hmem, hblocked, hrun⟩ := schedule_slots h hs
  refine ⟨rfl, fun a => ?_, fun hb => ?_⟩
  · rw [BlockedSlot, hmem, hblocked, BlockedSlot]
  · rw [BlockedSlot, hrun] at hb
    simp at hb

theorem CallsInvariant.not_blocked (h : CallsInvariant s) (hst : s.next s.current = some st)
    (hunset : ∀ key, st ≠ .unset key) (hyield : ∀ key, st ≠ .yield key) :
    ¬ BlockedSlot s.machine.sched s.current := by
  intro hb
  obtain ⟨key, hkey | hkey⟩ := h.awake hb
  · exact hunset key (Option.some.inj (hst.symm.trans hkey))
  · exact hyield key (Option.some.inj (hst.symm.trans hkey))

theorem CallsInvariant.not_blocked_outside (h : CallsInvariant s) (hst : s.next s.current = none) :
    ¬ BlockedSlot s.machine.sched s.current := by
  intro hb
  obtain ⟨key, hkey | hkey⟩ := h.awake hb
  · rw [hst] at hkey
    cases hkey
  · rw [hst] at hkey
    cases hkey

end

/-! ### Steps -/

section

variable {s t : Calls} {m : Machine} {st : Statement} {st' : Option Statement} {node : ℕ}

theorem CallsInvariant.of_goto (hplaced : Placed (s.goto m st'))
    (hlinked : Linked m) (hcurrent : m.sched.current = s.current)
    (hawake : ¬ BlockedSlot s.machine.sched s.current)
    (hblocked : ∀ a, BlockedSlot m.sched a → BlockedSlot s.machine.sched a)
    (hw : Wakeups (Function.update s.next s.current st') (fun key => m.waiting key)
      (fun key => (m.openMutexes key).locked) (BlockedSlot m.sched)) :
    CallsInvariant (s.goto m st') := by
  refine ⟨hplaced, hlinked, fun hb => absurd (hblocked _ hb) ?_, hw⟩
  show ¬ BlockedSlot s.machine.sched m.sched.current
  rwa [hcurrent]

theorem CallsInvariant.run_testAndSet {key : ℤ} (h : CallsInvariant s)
    (hst : s.next s.current = some (.testAndSet key)) (hok : Undisturbed s node (.testAndSet key))
    (ht : s.run node (.testAndSet key) = some t) : CallsInvariant t := by
  have hplaced := h.placed.run hst ht
  have hlinked := h.linked.run hok ht
  have hawake := h.not_blocked hst (by simp) (by simp)
  have hlock : ∀ k, (s.machine.openMutexes k).locked = locked →
      ((s.machine.setLocked key locked).openMutexes k).locked = locked := fun k hk => by
    rw [locked_setLocked, hk, ite_self]
  simp only [Calls.run] at ht
  split_ifs at ht with htaken
  · -- somebody holds the mutex, and nobody is about to unlock it
    rw [← Option.some.inj ht] at hplaced hlinked ⊢
    refine CallsInvariant.of_goto hplaced hlinked rfl hawake (fun _ hb => hb) ?_
    refine Wakeups.mono (h.wakeups.goto (by simp) (fun hb => absurd hb hawake)
      (by simp [Wakes, hst]) (by simp [FoundNobody]) (fun k hk => ?_) (by simp [Relocks, hst]))
      (fun k => waiting_setLocked locked k) hlock (fun _ hb => hb)
    obtain rfl : key = k := Statement.enqueue.inj (Option.some.inj hk)
    refine ⟨htaken, fun a ha => hok htaken a (h.placed.inRing a fun hnone => ?_) ha⟩
    simp [FoundNobody, hnone] at ha
  · rw [← Option.some.inj ht] at hplaced hlinked ⊢
    refine CallsInvariant.of_goto hplaced hlinked rfl hawake (fun _ hb => hb) ?_
    exact Wakeups.mono (h.wakeups.goto (by simp) (fun hb => absurd hb hawake)
      (by simp [Wakes, hst]) (by simp [FoundNobody]) (by simp) (by simp [Relocks, hst]))
      (fun k => waiting_setLocked locked k) hlock (fun _ hb => hb)

theorem CallsInvariant.run_enqueue {key : ℤ} (h : CallsInvariant s)
    (hst : s.next s.current = some (.enqueue key)) (hok : Undisturbed s node (.enqueue key))
    (ht : s.run node (.enqueue key) = some t) : CallsInvariant t := by
  have hplaced := h.placed.run hst ht
  have hlinked := h.linked.run hok ht
  have hawake := h.not_blocked hst (by simp) (by simp)
  obtain ⟨q, hq, helems, -⟩ := queueProcess_spec h.linked hok.1 hok.2 s.current
  rw [← Option.some.inj ht] at hplaced hlinked ⊢
  rw [hq] at hplaced hlinked ⊢
  refine CallsInvariant.of_goto hplaced hlinked rfl hawake (fun _ hb => hb) ?_
  have hself : (s.machine.setQueue key (some q)).waiting key =
      s.machine.waiting key ++ [s.current] := by
    rw [waiting_setQueue, if_pos rfl]
    exact helems
  have hput := h.wakeups.enqueue (w := fun k => (s.machine.setQueue key (some q)).waiting k)
    hst hself fun k hk => by rw [waiting_setQueue, if_neg hk]
  refine Wakeups.mono (hput.goto (fun k hk => ?_) (fun hb => absurd hb hawake)
    (by simp [Wakes, hst]) (by simp [FoundNobody]) (by simp) (by simp [Relocks, hst]))
    (fun _ => rfl) (fun k hk => by rwa [locked_setQueue]) (fun _ hb => hb)
  obtain rfl : key = k := Statement.block.inj (Option.some.inj hk)
  show s.current ∈ (s.machine.setQueue key (some q)).waiting key
  rw [hself]
  simp

theorem current_changeProcessState (h : RingInvariant m.sched) {p : ℕ} (hp : p ∈ ring m.sched)
    (state : ProcessState) : (m.changeProcessState p state).sched.current = m.sched.current := by
  show (changeProcessState (m.sched.processOf p).pid state m.sched).current = m.sched.current
  rw [h.changeProcessState_slot hp, setState_current]

theorem CallsInvariant.run_block {key : ℤ} (h : CallsInvariant s)
    (hst : s.next s.current = some (.block key)) (ht : s.run node (.block key) = some t) :
    CallsInvariant t := by
  have hplaced := h.placed.run hst ht
  have hok : Undisturbed s node (.block key) := trivial
  have hlinked := h.linked.run hok ht
  have hawake := h.not_blocked hst (by simp) (by simp)
  have hblocked := blockedSlot_changeProcessState h.placed.isRing h.placed.current_mem .blocked
  rw [← Option.some.inj ht] at hplaced hlinked ⊢
  refine ⟨hplaced, hlinked, fun _ => ⟨key, Or.inl ?_⟩, ?_⟩
  · show Function.update s.next s.current _ (s.machine.changeProcessState _ _).sched.current = _
    rw [current_changeProcessState h.placed.isRing h.placed.current_mem]
    exact Function.update_self ..
  · have hmoved := h.wakeups.goto (c := s.current) (n := some (.unset key)) (by simp)
      (fun hb => absurd hb hawake) (by simp [Wakes, hst]) (by simp [FoundNobody]) (by simp)
      (by simp [Relocks, hst])
    refine hmoved.block ?_ (h.wakeups.atBlock _ _ hst) fun a ha => ?_
    · exact Or.inl (Function.update_self ..)
    · have hb := (hblocked a).mp ha
      split_ifs at hb with hac
      · exact Or.inl hac
      · exact Or.inr hb

theorem CallsInvariant.run_unset {key : ℤ} (h : CallsInvariant s)
    (hst : s.next s.current = some (.unset key)) (ht : s.run node (.unset key) = some t) :
    CallsInvariant t := by
  have hplaced := h.placed.run hst ht
  rw [← Option.some.inj ht] at hplaced ⊢
  refine ⟨hplaced, h.linked, fun _ => ⟨key, Or.inr ?_⟩, ?_⟩
  · exact Function.update_self ..
  · exact h.wakeups.goto (by simp) (fun _ k hk => by simp_all [Sleeping]) (by simp [Wakes, hst])
      (by simp [FoundNobody]) (by simp) (by simp [Relocks, hst])

theorem CallsInvariant.yield (h : CallsInvariant s) (hy : s.machine.yield = some m) :
    CallsInvariant { s with machine := m } := by
  obtain ⟨hmutexes, hblocked, hcur⟩ := yield_spec h.placed.isRing hy
  refine ⟨h.placed.yield hy, ?_, fun hb => absurd hb hcur, ?_⟩
  · show Linked m
    unfold Linked
    rw [hmutexes]
    exact h.linked
  · refine h.wakeups.mono (fun key => ?_) (fun key hk => ?_) fun a ha => (hblocked a).mp ha
    · unfold Machine.waiting
      rw [hmutexes]
    · rwa [hmutexes]

theorem CallsInvariant.run_yield {key : ℤ} (h : CallsInvariant s)
    (hst : s.next s.current = some (.yield key)) (ht : s.run node (.yield key) = some t) :
    CallsInvariant t := by
  have hplaced := h.placed.run hst ht
  have hok : Undisturbed s node (.yield key) := trivial
  have hlinked := h.linked.run hok ht
  obtain ⟨m, hm, rfl⟩ := Option.map_eq_some_iff.mp ht
  obtain ⟨hmutexes, hblocked, hcur⟩ := yield_spec h.placed.isRing hm
  refine ⟨hplaced, hlinked, fun hb => absurd hb hcur, ?_⟩
  have hmoved := h.wakeups.goto (c := s.current) (n := some (.woken key)) (by simp)
    (fun _ k hk => by simp_all [Sleeping]) (by simp [Wakes, hst]) (by simp [FoundNobody]) (by simp)
    (by simp [Relocks, hst])
  refine hmoved.mono (fun key => ?_) (fun key hk => ?_) fun a ha => (hblocked a).mp ha
  · show m.waiting key = s.machine.waiting key
    unfold Machine.waiting
    rw [hmutexes]
  · show (m.openMutexes key).locked = locked
    rwa [hmutexes]

/-- The end of a call. -/
theorem CallsInvariant.run_last (h : CallsInvariant s)
    (hlast : st = .leave ∨ ∃ key, st = .woken key)
    (hst : s.next s.current = some st) (ht : s.run node st = some t) : CallsInvariant t := by
  have hplaced := h.placed.run hst ht
  have hawake : ¬ BlockedSlot s.machine.sched s.current := by
    rcases hlast with rfl | ⟨key, rfl⟩ <;> exact h.not_blocked hst (by simp) (by simp)
  have hmoved : Wakeups (Function.update s.next s.current none)
      (fun key => s.machine.waiting key) (fun key => (s.machine.openMutexes key).locked)
      (BlockedSlot s.machine.sched) := by
    refine h.wakeups.goto (by simp) (fun hb => absurd hb hawake) ?_ (by simp [FoundNobody])
      (by simp) ?_
    · rcases hlast with rfl | ⟨key, rfl⟩ <;> simp [Wakes, hst]
    · rcases hlast with rfl | ⟨key, rfl⟩ <;> simp [Relocks, hst]
  rcases hlast with rfl | ⟨key, rfl⟩
  · rw [← Option.some.inj ht] at hplaced ⊢
    exact CallsInvariant.of_goto hplaced h.linked rfl hawake (fun _ hb => hb) hmoved
  · rw [← Option.some.inj ht] at hplaced ⊢
    exact CallsInvariant.of_goto hplaced h.linked rfl hawake (fun _ hb => hb) hmoved

theorem CallsInvariant.run_dequeue {key : ℤ} (h : CallsInvariant s)
    (hst : s.next s.current = some (.dequeue key)) (hok : Undisturbed s node (.dequeue key))
    (ht : s.run node (.dequeue key) = some t) : CallsInvariant t := by
  have hplaced := h.placed.run hst ht
  have hlinked := h.linked.run hok ht
  have hawake := h.not_blocked hst (by simp) (by simp)
  obtain ⟨hempty, hhead⟩ := hok
  cases hw : s.machine.waiting key with
  | nil =>
    simp only [Calls.run, dequeueProcess_nil hw] at ht
    rw [← Option.some.inj ht] at hplaced ⊢
    have hnobody : ∀ b, s.next b ≠ some (.enqueue key) := fun b hb =>
      hempty hw b (h.placed.inRing b (by simp [hb])) hb
    refine CallsInvariant.of_goto hplaced h.linked rfl hawake (fun _ hb => hb) ?_
    refine h.wakeups.goto (by simp) (fun hb => absurd hb hawake) (by simp [Wakes, hst])
      (fun k hk => ?_) (by simp) (by simp [Relocks, hst])
    obtain rfl : key = k := by simpa [FoundNobody] using hk
    exact ⟨hw, hnobody⟩
  | cons p rest =>
    obtain ⟨q, hq, hrest⟩ := dequeueProcess_cons hw
    simp only [Calls.run, hq] at ht
    rw [← Option.some.inj ht] at hplaced hlinked ⊢
    have hp : p ≠ null := fun he => h.placed.isRing.null_notMem
      (he ▸ h.placed.queued key p (by simp [hw]))
    refine CallsInvariant.of_goto hplaced hlinked rfl hawake (fun _ hb => hb) ?_
    have hmoved := h.wakeups.goto (c := s.current) (n := some (.checkDead key p)) (by simp)
      (fun hb => absurd hb hawake) (by simp [Wakes, hst]) (by simp [FoundNobody, hp]) (by simp)
      (by simp [Relocks, hst])
    refine Wakeups.mono (hmoved.dequeue (p := p)
      (w := fun k => (s.machine.setQueue key q).waiting k) hw ?_ ?_ hrest
      fun k hk => by rw [waiting_setQueue, if_neg hk]) (fun _ => rfl)
      (fun k hk => by rwa [locked_setQueue]) (fun _ hb => hb)
    · by_cases hpc : p = s.current
      · simp [hpc]
      · simpa [hpc] using hhead p (by simp [hw])
    · exact ⟨s.current, Or.inl (Function.update_self ..)⟩

theorem CallsInvariant.run_checkDead {key : ℤ} {p : ℕ} (h : CallsInvariant s)
    (hst : s.next s.current = some (.checkDead key p))
    (ht : s.run node (.checkDead key p) = some t) : CallsInvariant t := by
  have hplaced := h.placed.run hst ht
  have hawake := h.not_blocked hst (by simp) (by simp)
  simp only [Calls.run] at ht
  split_ifs at ht with hdead
  · rw [← Option.some.inj ht] at hplaced ⊢
    refine CallsInvariant.of_goto hplaced h.linked rfl hawake (fun _ hb => hb) ?_
    refine h.wakeups.goto (by simp) (fun hb => absurd hb hawake) (fun k q hk hb => ?_)
      (by simp [FoundNobody]) (by simp) (by simp [Relocks, hst])
    -- a process that is dead is not blocked
    obtain ⟨-, rfl⟩ : key = k ∧ p = q := by simpa [Wakes, hst] using hk
    rw [BlockedSlot, hdead] at hb
    simp at hb
  · rw [← Option.some.inj ht] at hplaced ⊢
    refine CallsInvariant.of_goto hplaced h.linked rfl hawake (fun _ hb => hb) ?_
    refine h.wakeups.goto (by simp) (fun hb => absurd hb hawake) (fun k q hk _ => ?_)
      (fun k hk => ?_) (by simp) (by simp [Relocks, hst])
    · obtain ⟨rfl, rfl⟩ : key = k ∧ p = q := by simpa [Wakes, hst] using hk
      exact Or.inr (Or.inl rfl)
    · obtain ⟨rfl, rfl⟩ : key = k ∧ p = null := by simpa [FoundNobody] using hk
      exact h.wakeups.nobody s.current key (Or.inl hst)

theorem CallsInvariant.run_release {key : ℤ} {p : ℕ} (h : CallsInvariant s)
    (hst : s.next s.current = some (.release key p))
    (ht : s.run node (.release key p) = some t) : CallsInvariant t := by
  have hplaced := h.placed.run hst ht
  have hawake := h.not_blocked hst (by simp) (by simp)
  rw [← Option.some.inj ht] at hplaced ⊢
  refine CallsInvariant.of_goto hplaced (h.linked.setLocked unlocked) rfl hawake (fun _ hb => hb) ?_
  have hmoved := h.wakeups.goto (c := s.current) (n := some (.wake key p)) (by simp)
    (fun hb => absurd hb hawake) (fun k q hk _ => by
      obtain ⟨rfl, rfl⟩ : key = k ∧ p = q := by simpa [Wakes, hst] using hk
      exact Or.inr (Or.inr rfl)) (by simp [FoundNobody]) (by simp) (by simp [Relocks, hst])
  refine Wakeups.mono (hmoved.release
    (l := fun k => ((s.machine.setLocked key unlocked).openMutexes k).locked) ?_
    fun k hk => by rw [locked_setLocked, if_neg hk])
    (fun k => waiting_setLocked unlocked k) (fun _ hk => hk) (fun _ hb => hb)
  by_cases hp : p = null
  · subst hp
    obtain ⟨hempty, hno⟩ := h.wakeups.nobody s.current key (Or.inr hst)
    refine Or.inl ⟨hempty, fun b hb => ?_⟩
    by_cases hbc : b = s.current
    · simp [hbc] at hb
    · exact hno b (by simpa [hbc] using hb)
  · exact Or.inr ⟨s.current, Or.inr ⟨p, hp, Function.update_self ..⟩⟩

theorem CallsInvariant.run_wake {key : ℤ} {p : ℕ} (h : CallsInvariant s)
    (hst : s.next s.current = some (.wake key p)) (ht : s.run node (.wake key p) = some t) :
    CallsInvariant t := by
  have hplaced := h.placed.run hst ht
  have hawake := h.not_blocked hst (by simp) (by simp)
  simp only [Calls.run] at ht
  split_ifs at ht with hp
  · have hmem := h.placed.woken s.current key p (Or.inr (Or.inr hst)) hp
    have hblocked := blockedSlot_changeProcessState h.placed.isRing hmem .ready
    have hother : ∀ a, BlockedSlot (s.machine.changeProcessState p .ready).sched a →
        a ≠ p ∧ BlockedSlot s.machine.sched a := fun a ha => by
      have hb := (hblocked a).mp ha
      split_ifs at hb with hap
      exact ⟨hap, hb⟩
    rw [← Option.some.inj ht] at hplaced ⊢
    refine CallsInvariant.of_goto hplaced h.linked
      (current_changeProcessState h.placed.isRing hmem .ready) hawake
      (fun a ha => (hother a ha).2) ?_
    have hready := h.wakeups.mono (fun _ => rfl) (fun _ hk => hk) fun a ha => (hother a ha).2
    refine hready.goto (by simp) (fun hb => absurd (hother _ hb).2 hawake) (fun k q hk hb => ?_)
      (by simp [FoundNobody]) (by simp) (fun k hk => ?_)
    · obtain ⟨-, rfl⟩ : key = k ∧ p = q := by simpa [Wakes, hst] using hk
      exact absurd rfl (hother p hb).1
    · obtain ⟨-, rfl⟩ : ¬ p = null ∧ key = k := by simpa [Relocks, hst] using hk
      exact Or.inr (Or.inl rfl)
  · have hnull : p = null := not_not.mp hp
    subst hnull
    rw [← Option.some.inj ht] at hplaced ⊢
    refine CallsInvariant.of_goto hplaced h.linked rfl hawake (fun _ hb => hb) ?_
    refine h.wakeups.goto (by simp) (fun hb => absurd hb hawake) (fun k q hk hb => ?_)
      (by simp [FoundNobody]) (by simp) (by simp [Relocks, hst])
    obtain ⟨-, rfl⟩ : key = k ∧ null = q := by simpa [Wakes, hst] using hk
    exact absurd hb.1 h.placed.isRing.null_notMem

theorem CallsInvariant.run_relock {key : ℤ} (h : CallsInvariant s)
    (hst : s.next s.current = some (.relock key)) (ht : s.run node (.relock key) = some t) :
    CallsInvariant t := by
  have hplaced := h.placed.run hst ht
  have hawake := h.not_blocked hst (by simp) (by simp)
  rw [← Option.some.inj ht] at hplaced ⊢
  refine CallsInvariant.of_goto hplaced (h.linked.setLocked locked) rfl hawake (fun _ hb => hb) ?_
  have hlock := h.wakeups.mono (w := fun k => (s.machine.setLocked key locked).waiting k)
    (l := fun k => ((s.machine.setLocked key locked).openMutexes k).locked)
    (fun k => waiting_setLocked locked k)
    (fun k hk => by rw [locked_setLocked, hk, ite_self]) fun _ hb => hb
  refine hlock.goto (by simp) (fun hb => absurd hb hawake) (by simp [Wakes, hst])
    (by simp [FoundNobody]) (by simp) (fun k hk => Or.inl ?_)
  obtain rfl : key = k := by simpa [Relocks, hst] using hk
  rw [locked_setLocked, if_pos rfl]

theorem CallsInvariant.run (h : CallsInvariant s) (hst : s.next s.current = some st)
    (hok : Undisturbed s node st) (ht : s.run node st = some t) : CallsInvariant t := by
  cases st with
  | testAndSet key => exact h.run_testAndSet hst hok ht
  | enqueue key => exact h.run_enqueue hst hok ht
  | block key => exact h.run_block hst ht
  | unset key => exact h.run_unset hst ht
  | yield key => exact h.run_yield hst ht
  | woken key => exact h.run_last (Or.inr ⟨key, rfl⟩) hst ht
  | dequeue key => exact h.run_dequeue hst hok ht
  | checkDead key p => exact h.run_checkDead hst ht
  | release key p => exact h.run_release hst ht
  | wake key p => exact h.run_wake hst ht
  | relock key => exact h.run_relock hst ht
  | leave => exact h.run_last (Or.inl rfl) hst ht

end

/-! ### Runs -/

section

variable {s t : Calls}

theorem CallsInvariant.call {key : ℤ} {first : Statement} (h : CallsInvariant s)
    (hnone : s.next s.current = none)
    (hfirst : first = .testAndSet key ∨ first = .dequeue key) :
    CallsInvariant (s.call key first) := by
  have hplaced : Placed (s.call key first) := by
    rcases hfirst with rfl | rfl <;> exact h.placed.call (by simp [Wakes])
  unfold Calls.call at hplaced ⊢
  split_ifs at hplaced ⊢
  · have hawake := h.not_blocked_outside hnone
    refine CallsInvariant.of_goto hplaced h.linked rfl hawake (fun _ hb => hb) ?_
    rcases hfirst with rfl | rfl <;>
      exact h.wakeups.goto (by simp) (fun hb => absurd hb hawake) (by simp [Wakes, hnone])
        (by simp [FoundNobody]) (by simp) (by simp [Relocks, hnone])
  · exact h

theorem CallsInvariant.createProcess {page : ℕ} (h : CallsInvariant s)
    (hpage : FreshPage s.machine.sched page)
    (ht : callsStep s (.createProcess page) = some t) : CallsInvariant t := by
  have hplaced := h.placed.step ht
  simp only [callsStep, if_pos hpage] at ht
  rw [← Option.some.inj ht] at hplaced ⊢
  have hblocked := (createProcess_slots h.placed.isRing hpage).2
  have hcurrent := (createProcess_registers h.placed.isRing.current_ne_null page).1
  refine ⟨hplaced, h.linked, fun hb => ?_, h.wakeups.mono (fun _ => rfl) (fun _ hk => hk)
    fun a ha => (hblocked a).mp ha⟩
  rw [Calls.current, hcurrent] at hb ⊢
  exact h.awake ((hblocked _).mp hb)

theorem CallsInvariant.step (h : CallsInvariant s) {e : Event} (hok : e.Undisturbed s)
    (ht : callsStep s e = some t) : CallsInvariant t := by
  cases e with
  | mutexLock key =>
    simp only [callsStep] at ht
    split_ifs at ht with hnone
    rw [← Option.some.inj ht]
    exact h.call hnone (Or.inl rfl)
  | mutexUnlock key =>
    simp only [callsStep] at ht
    split_ifs at ht with hnone
    rw [← Option.some.inj ht]
    exact h.call hnone (Or.inr rfl)
  | run node =>
    obtain ⟨st, hst, hrun⟩ := Option.bind_eq_some_iff.mp ht
    exact h.run hst (hok st hst) hrun
  | tick =>
    obtain ⟨m, hm, rfl⟩ := Option.map_eq_some_iff.mp ht
    exact h.yield hm
  | createProcess page =>
    by_cases hpage : FreshPage s.machine.sched page
    · exact h.createProcess hpage ht
    · simp [callsStep, hpage] at ht

theorem callsInvariant_start (h : IsFresh s) : CallsInvariant s := by
  have hplaced := placed_start h
  obtain ⟨⟨slot, page, hpage, hs⟩, hfresh, hnone⟩ := h
  have hsched : s.machine.sched = (Scheduler.createProcess page (Scheduler.boot slot)).2 :=
    congrArg Machine.sched hs
  have hblocked : ∀ a, ¬ BlockedSlot s.machine.sched a := by
    rintro a ⟨ha, hb⟩
    obtain ⟨hcur, hcard, -, -, -, hproc⟩ := createProcess_boot slot page
    rw [hsched, ring, hcard, hcur] at ha
    obtain rfl : a = page := by simpa using ha
    rw [hsched, hproc] at hb
    simp at hb
  refine ⟨hplaced, fun key q hq hne => absurd ?_ hne, fun hb => absurd hb (hblocked _),
    ⟨fun a key ha => ?_, fun a ha => absurd ha (hblocked a), fun a key ha => ?_, fun key hq => ?_⟩⟩
  · have hw := (hfresh key).1
    simpa [Machine.waiting, hq] using hw
  · rw [hnone a] at ha
    cases ha
  · rw [hnone a] at ha
    simp [FoundNobody] at ha
  · rcases hq with hq | ⟨a, ha⟩
    · exact absurd (hfresh key).1 hq
    · rw [hnone a] at ha
      cases ha

/-- In a run that misses the windows no wake-up is lost. -/
theorem none_lost (h : (callsSystem.restrict fun s e => e.Undisturbed s).Reachable s) :
    NoneLost s := by
  have hinv : CallsInvariant s := by
    refine h.invariant (I := CallsInvariant) (fun _ hs => callsInvariant_start hs) ?_
    rintro s e t hinv ⟨hok, hstep⟩
    exact hinv.step hok hstep
  exact ⟨hinv.wakeups.asleep, fun key hq => hinv.wakeups.queued key (Or.inl hq)⟩

end

/-- One mutex is open. -/
def oneMutex : Calls :=
  ⟨started.setMutex 0 (createNewMutex [109] (pageAt 9)), fun _ => none⟩

theorem isFresh_oneMutex : IsFresh oneMutex := by
  refine ⟨isStart_started, fun key => ?_, fun _ => rfl⟩
  by_cases hkey : key = 0
  · subst hkey
    exact ⟨by decide +kernel, fun _ => by decide +kernel⟩
  · have hclosed : oneMutex.machine.openMutexes key = ⟨[], 0, 0, none⟩ :=
      Function.update_of_ne hkey ..
    refine ⟨?_, fun hopen => ?_⟩
    · rw [Machine.waiting, hclosed]
      rfl
    · rw [isOpen, hclosed] at hopen
      simp [opened] at hopen

/-- Process 1 waits while process 2 holds the mutex. -/
theorem none_lost_waiting : ∃ s, s.machine.waiting 0 = [pageAt 1] ∧ NoneLost s := by
  obtain ⟨s, hs, hw⟩ := reachable_restrict_of_execute IsFresh isFresh_oneMutex
    (show (execute (guarded (fun s e => Event.Undisturbed s e) callsStep) oneMutex
      [.createProcess (pageAt 1), .createProcess (pageAt 2), .tick, .mutexLock 0, .run 0, .tick,
        .mutexLock 0, .run 0, .tick, .tick, .run 0, .tick, .run (pageAt 3), .run 0, .run 0,
        .run 0]).map (fun s => s.machine.waiting 0) = some [pageAt 1] by decide +kernel)
  exact ⟨s, hw, none_lost hs⟩

/-- Process 2 unlocks the mutex while process 1 is on its way to the queue. -/
theorem wake_up_lost : ∃ s, callsSystem.Reachable s ∧ BlockedSlot s.machine.sched (pageAt 1) ∧
    s.machine.waiting 0 = [pageAt 1] ∧ (s.machine.openMutexes 0).locked = unlocked ∧
    ∀ a ≠ pageAt 1, s.next a = none := by
  obtain ⟨s, hpath, hview⟩ := exists_path_of_execute IsFresh
    (show (execute callsStep oneMutex
      [.createProcess (pageAt 1), .createProcess (pageAt 2), .tick, .mutexLock 0, .run 0, .run 0,
        .tick, .mutexLock 0, .run 0, .tick, .tick, .mutexUnlock 0, .run 0, .run 0, .run 0, .run 0,
        .run 0, .tick, .run (pageAt 3), .run 0, .run 0, .run 0]).map (fun s : Calls =>
      (decide (BlockedSlot s.machine.sched (pageAt 1)), s.machine.waiting 0,
        (s.machine.openMutexes 0).locked,
        decide (∀ a ∈ ring s.machine.sched, a ≠ pageAt 1 → s.next a = none))) =
      some (true, [pageAt 1], unlocked, true) by decide +kernel)
  simp only [Prod.mk.injEq, decide_eq_true_eq] at hview
  obtain ⟨hblocked, hw, hlock, hnone⟩ := hview
  have hs := hpath.reachable (System.Reachable.start isFresh_oneMutex)
  refine ⟨s, hs, hblocked, hw, hlock, fun a ha => ?_⟩
  by_contra hnext
  exact hnext (hnone a ((reachable_placed hs).inRing a hnext) ha)

end GatOS.QueuedMutex
