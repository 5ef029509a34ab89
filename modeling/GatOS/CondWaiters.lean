import GatOS.CondCalls

/-!
# The processes that wait on a condition variable

What the statements of `cond_wait`, `cond_signal` and `cond_broadcast` mean for the queues of the
mutexes and of the variables and for the records of the calls, when one process goes on.
-/
namespace GatOS.CondCalls
open Scheduler

/-- The process is in the queue of the variable, or has been taken out of it and not woken yet,
unless it can go on behind its `_yield`. -/
def Call.enqueued (key : ℤ) : Call → Bool
  | .wait key' _ place => key' = key &&
      (place = .unlockQueue || place = .block || place = .yield || place = .relock)
  | .wake .. => false

/-- The last statement was a call of `mutex_lock`. -/
def Call.afterLock : Call → Bool
  | .wait _ _ place => place = .enqueue || place = .ret
  | .wake _ _ .test _ => true
  | .wake .. => false

def Between (key : ℤ) (c : Option Call) : Prop := c.any (Call.between key) = true

def Enqueued (key : ℤ) (c : Option Call) : Prop := c.any (Call.enqueued key) = true

def Asleep (key : ℤ) (c : Option Call) : Prop := c.any (Call.asleep key) = true

/-- Also of a process that has called `mutex_lock` itself. -/
def AfterLock (c : Option Call) : Prop := c.all Call.afterLock = true

/-- What a call has to show for itself once it has looked at the queue. -/
def Call.Progress : Call → Prop
  | .wake .signal _ (.unlock p) record => p ≠ null ∨ ∀ q, record.left q = false
  | .wake .signal _ (.wake p) record => p ≠ null ∨ ∀ q, record.left q = false
  | .wake .signal _ .ret record => record.woken ≠ [] ∨ ∀ q, record.left q = false
  | .wake .broadcast _ (.wake p) _ => p ≠ null
  | .wake .broadcast _ (.unlock p) record => p = null ∧ ∀ q, record.left q = false
  | .wake .broadcast _ .ret record => ∀ q, record.left q = false
  | _ => True

/-- `waiting` are the queues of the mutexes. -/
structure Locks (calls : ℕ → Option Call) (waiting : ℤ → List ℕ) (blocked : ℕ → Prop)
    (current : ℕ) : Prop where
  running : blocked current → ∃ key lockKey, calls current = some (.wait key lockKey .yield)
  parked : ∀ k, ∀ p ∈ waiting k, blocked p ∧ AfterLock (calls p)
  parkedNodup : ∀ k, (waiting k).Nodup
  parkedOnce : ∀ k k' p, p ∈ waiting k → p ∈ waiting k' → k = k'

/-- `queue` are the queues of the variables. A process that waits is in one of them or has been
taken out to be woken. -/
structure Queues (calls : ℕ → Option Call) (queue : ℤ → List ℕ) (blocked : ℕ → Prop) : Prop where
  queued : ∀ key, ∀ p ∈ queue key,
    Enqueued key (calls p) ∧ (Asleep key (calls p) → blocked p)
  queueNodup : ∀ key, (queue key).Nodup
  taken : ∀ q key p, Takes (calls q) key p → Enqueued key (calls p) ∧
    (Asleep key (calls p) → blocked p) ∧ p ∉ queue key ∧ ∀ q', Takes (calls q') key p → q' = q
  held : ∀ key p, Enqueued key (calls p) → (Asleep key (calls p) → blocked p) →
    p ∈ queue key ∨ ∃ q, Takes (calls q) key p

/-- Who is left is on the way to the queue or in it. -/
structure Records (calls : ℕ → Option Call) (queue : ℤ → List ℕ) : Prop where
  left : ∀ q kind key place record, calls q = some (.wake kind key place record) →
    ∀ p, record.left p = true → Between key (calls p) ∨ p ∈ queue key
  progress : ∀ q c, calls q = some c → c.Progress

structure Sound (calls : ℕ → Option Call) (queue waiting : ℤ → List ℕ) (blocked : ℕ → Prop)
    (current : ℕ) : Prop extends
  Locks calls waiting blocked current, Queues calls queue blocked, Records calls queue

section

variable {calls : ℕ → Option Call} {queue queue' waiting waiting' : ℤ → List ℕ}
  {blocked blocked' : ℕ → Prop} {current current' c p q : ℕ} {key lockKey : ℤ}
  {new call : Option Call} {kind : Kind} {place : WakePlace} {record : Record}

theorem Enqueued.not_afterLock {call : Option Call} (h : Enqueued key call) :
    ¬ AfterLock call := by
  cases call with
  | none => simp [Enqueued] at h
  | some call =>
    cases call with
    | wait key' lockKey place =>
      cases place <;> simp_all [Enqueued, AfterLock, Call.enqueued, Call.afterLock]
    | wake kind key' place record => simp [Enqueued, Call.enqueued] at h

theorem Enqueued.key_eq {call : Option Call} {key' : ℤ} (h : Enqueued key call)
    (h' : Enqueued key' call) : key = key' := by
  cases call with
  | none => simp [Enqueued] at h
  | some call =>
    cases call with
    | wait k lockKey place =>
      simp only [Enqueued, Option.any_some, Call.enqueued, Bool.and_eq_true,
        decide_eq_true_eq] at h h'
      exact h.1.symm.trans h'.1
    | wake kind k place record => simp [Enqueued, Call.enqueued] at h

theorem Asleep.enqueued {call : Option Call} (h : Asleep key call) : Enqueued key call := by
  cases call with
  | none => simp [Asleep] at h
  | some call =>
    cases call with
    | wait key' lockKey place =>
      cases place <;> simp_all [Enqueued, Asleep, Call.enqueued, Call.asleep]
    | wake kind key' place record => simp [Asleep, Call.asleep] at h

/-- A process in no call. -/
theorem not_waits_none (key : ℤ) (p : ℕ) : ¬ Enqueued key none ∧ ¬ Asleep key none ∧
    ¬ Between key none ∧ ¬ Takes none key p := by
  simp [Enqueued, Asleep, Between, Takes]

/-- What holds of the new call of `c` when it holds of the old one. -/
theorem update_iff {F : Option Call → Prop} (h : F new ↔ F (calls c)) (a : ℕ) :
    F (Function.update calls c new a) ↔ F (calls a) := by
  by_cases ha : a = c
  · rw [ha, Function.update_self, h]
  · rw [Function.update_of_ne ha]

theorem mem_of_rest {k : ℤ} {rest : List ℕ} (hkey : queue key = p :: rest)
    (hrest : queue' key = rest) (hother : ∀ k, k ≠ key → queue' k = queue k) {a : ℕ}
    (ha : a ∈ queue' k) : a ∈ queue k := by
  by_cases hk : k = key
  · subst hk
    rw [hrest] at ha
    rw [hkey]
    exact List.mem_cons_of_mem p ha
  · exact hother k hk ▸ ha

theorem mem_rest_or_first {k : ℤ} {rest : List ℕ} (hkey : queue key = p :: rest)
    (hrest : queue' key = rest) (hother : ∀ k, k ≠ key → queue' k = queue k) {a : ℕ}
    (ha : a ∈ queue k) : a ∈ queue' k ∨ (k = key ∧ a = p) := by
  by_cases hk : k = key
  · subst hk
    rw [hkey] at ha
    rw [hrest]
    exact (List.mem_cons.mp ha).symm.imp_right fun he => ⟨rfl, he⟩
  · exact Or.inl (hother k hk ▸ ha)

theorem mem_append_iff (hkey : queue' key = queue key ++ [c])
    (hother : ∀ k, k ≠ key → queue' k = queue k) (k : ℤ) (p : ℕ) :
    p ∈ queue' k ↔ p ∈ queue k ∨ (k = key ∧ p = c) := by
  by_cases hk : k = key
  · subst hk
    simp [hkey]
  · simp [hother k hk, hk]

/-! ### The queues of the mutexes -/

/-- A running process is in no queue of a mutex. -/
theorem Locks.not_parked (h : Locks calls waiting blocked current) (hc : ¬ blocked c) (k : ℤ) :
    c ∉ waiting k := fun hin => hc (h.parked k c hin).1

/-- A running process goes on. -/
theorem Locks.update (h : Locks calls waiting blocked current) (hc : ¬ blocked c) :
    Locks (Function.update calls c new) waiting blocked current := by
  refine ⟨fun hb => ?_, fun k p hp => ?_, h.parkedNodup, h.parkedOnce⟩
  · have hne : current ≠ c := fun he => hc (he ▸ hb)
    rw [Function.update_of_ne hne]
    exact h.running hb
  · obtain ⟨hb, hafter⟩ := h.parked k p hp
    have hne : p ≠ c := fun he => hc (he ▸ hb)
    rw [Function.update_of_ne hne]
    exact ⟨hb, hafter⟩

/-- A process that waits for no mutex goes on, and another one runs. -/
theorem Locks.leave (h : Locks calls waiting blocked current) (hafter : ¬ AfterLock (calls c))
    (hawake : ¬ blocked current') :
    Locks (Function.update calls c new) waiting blocked current' := by
  refine ⟨fun hb => absurd hb hawake, fun k p hp => ?_, h.parkedNodup, h.parkedOnce⟩
  have hpc : p ≠ c := by
    rintro rfl
    exact hafter (h.parked k p hp).2
  rw [Function.update_of_ne hpc]
  exact h.parked k p hp

/-- The running process blocks itself. -/
theorem Locks.block (h : Locks calls waiting blocked current) (hc : ¬ blocked current)
    (hblocked : ∀ a, blocked' a ↔ a = current ∨ blocked a) :
    Locks (Function.update calls current (some (.wait key lockKey .yield))) waiting blocked'
      current := by
  refine ⟨fun _ => ⟨key, lockKey, Function.update_self ..⟩, fun k p hp => ?_, h.parkedNodup,
    h.parkedOnce⟩
  obtain ⟨hb, hafter⟩ := (h.update hc).parked k p hp
  exact ⟨(hblocked p).mpr (Or.inr hb), hafter⟩

/-- A process that waits for no mutex is woken. -/
theorem Locks.wake (h : Locks calls waiting blocked current) (hp : ¬ AfterLock (calls p))
    (hblocked : ∀ a, blocked' a ↔ blocked a ∧ a ≠ p) : Locks calls waiting blocked' current := by
  refine ⟨fun hb => h.running ((hblocked current).mp hb).1, fun k a ha => ?_, h.parkedNodup,
    h.parkedOnce⟩
  obtain ⟨hb, hafter⟩ := h.parked k a ha
  refine ⟨(hblocked a).mpr ⟨hb, ?_⟩, hafter⟩
  rintro rfl
  exact hp hafter

/-- The running process finds the mutex locked. -/
theorem Locks.suspend (h : Locks calls waiting blocked current) (hc : ¬ blocked c)
    (hafter : AfterLock (calls c)) {k : ℤ}
    (hwaiting : waiting' k = waiting k ∨ waiting' k = waiting k ++ [c])
    (hother : ∀ k', k' ≠ k → waiting' k' = waiting k')
    (hblocked : ∀ a, blocked' a ↔ a = c ∨ blocked a) (hawake : ¬ blocked' current') :
    Locks calls waiting' blocked' current' := by
  have hmem : ∀ k' p, p ∈ waiting' k' → p ∈ waiting k' ∨ (k' = k ∧ p = c) := by
    intro k' p hp
    by_cases hk : k' = k
    · subst hk
      rcases hwaiting with hw | hw
      · exact Or.inl (hw ▸ hp)
      · rw [hw] at hp
        simpa using hp
    · exact Or.inl (hother k' hk ▸ hp)
  refine ⟨fun hb => absurd hb hawake, fun k' p hp => ?_, fun k' => ?_, fun k₁ k₂ p h₁ h₂ => ?_⟩
  · rcases hmem k' p hp with hold | ⟨-, rfl⟩
    · obtain ⟨hb, ha⟩ := h.parked k' p hold
      exact ⟨(hblocked p).mpr (Or.inr hb), ha⟩
    · exact ⟨(hblocked p).mpr (Or.inl rfl), hafter⟩
  · by_cases hk : k' = k
    · subst hk
      rcases hwaiting with hw | hw
      · rw [hw]
        exact h.parkedNodup k'
      · rw [hw, List.nodup_append_comm]
        exact List.nodup_cons.mpr ⟨h.not_parked hc k', h.parkedNodup k'⟩
    · rw [hother k' hk]
      exact h.parkedNodup k'
  · rcases hmem k₁ p h₁ with h₁ | ⟨rfl, rfl⟩
    · rcases hmem k₂ p h₂ with h₂ | ⟨-, rfl⟩
      · exact h.parkedOnce k₁ k₂ p h₁ h₂
      · exact absurd h₁ (h.not_parked hc k₁)
    · rcases hmem k₂ p h₂ with h₂ | ⟨rfl, -⟩
      · exact absurd h₂ (h.not_parked hc k₂)
      · rfl

/-- The first process that waits for a mutex gets it. -/
theorem Locks.handOver (h : Locks calls waiting blocked current) {k : ℤ} {rest : List ℕ}
    (hw : waiting k = p :: rest) (hwaiting : waiting' k = rest)
    (hother : ∀ k', k' ≠ k → waiting' k' = waiting k')
    (hblocked : ∀ a, blocked' a ↔ blocked a ∧ a ≠ p) : Locks calls waiting' blocked' current := by
  have hsub : ∀ k' a, a ∈ waiting' k' → a ∈ waiting k' := fun k' a => mem_of_rest hw hwaiting hother
  have hfirst : p ∈ waiting k := by
    rw [hw]
    exact List.mem_cons_self
  have hnodup := h.parkedNodup k
  rw [hw, List.nodup_cons] at hnodup
  have hne : ∀ k' a, a ∈ waiting' k' → a ≠ p := by
    rintro k' a ha rfl
    obtain rfl := h.parkedOnce k' k a (hsub k' a ha) hfirst
    rw [hwaiting] at ha
    exact hnodup.1 ha
  refine ⟨fun hb => h.running ((hblocked current).mp hb).1, fun k' a ha => ?_, fun k' => ?_,
    fun k₁ k₂ a h₁ h₂ => h.parkedOnce k₁ k₂ a (hsub k₁ a h₁) (hsub k₂ a h₂)⟩
  · obtain ⟨hb, hafter⟩ := h.parked k' a (hsub k' a ha)
    exact ⟨(hblocked a).mpr ⟨hb, hne k' a ha⟩, hafter⟩
  · by_cases hk : k' = k
    · subst hk
      rw [hwaiting]
      exact hnodup.2
    · rw [hother k' hk]
      exact h.parkedNodup k'

/-! ### The queues of the variables -/

theorem Takes.eq {call : Option Call} {key' : ℤ} {p' : ℕ} (h : Takes call key p)
    (h' : Takes call key' p') : key' = key ∧ p' = p := by
  obtain ⟨-, kind, record, h | h⟩ := h <;> obtain ⟨-, kind', record', h' | h'⟩ := h' <;>
    simp_all

theorem not_takes_wait {place : WaitPlace} {key' : ℤ} :
    ¬ Takes (some (.wait key lockKey place)) key' p := by
  simp [Takes]

/-- A process before its `enqueue` is in no queue of a variable. -/
theorem Queues.not_queued (h : Queues calls queue blocked) (hc : ∀ key, ¬ Enqueued key (calls c))
    (key : ℤ) : c ∉ queue key ∧ ∀ q, ¬ Takes (calls q) key c :=
  ⟨fun hin => hc key (h.queued key c hin).1, fun q hq => hc key (h.taken q key c hq).1⟩

/-- The call of `c` goes on, and the queues are as before. -/
theorem Queues.goto (h : Queues calls queue blocked)
    (hheld : ∀ key, (c ∈ queue key ∨ ∃ q, Takes (calls q) key c) → Enqueued key new)
    (hnew : ∀ key, Enqueued key new →
      Enqueued key (calls c) ∧ (Asleep key new ↔ Asleep key (calls c)))
    (htakes : ∀ key p, Takes new key p ↔ Takes (calls c) key p) :
    Queues (Function.update calls c new) queue blocked := by
  have htakes' : ∀ q key p, Takes (Function.update calls c new q) key p ↔
      Takes (calls q) key p := fun q key p =>
    update_iff (F := fun call => Takes call key p) (htakes key p) q
  -- a process in a queue is at the same place for the queue as before
  have hplace : ∀ key p, (p ∈ queue key ∨ ∃ q, Takes (calls q) key p) →
      Enqueued key (calls p) → (Asleep key (calls p) → blocked p) →
      Enqueued key (Function.update calls c new p) ∧
        (Asleep key (Function.update calls c new p) → blocked p) := by
    intro key p hin henqueued hblocked
    by_cases hc : p = c
    · subst hc
      have hin' := hheld key hin
      rw [Function.update_self]
      exact ⟨hin', fun hasleep => hblocked ((hnew key hin').2.mp hasleep)⟩
    · rw [Function.update_of_ne hc]
      exact ⟨henqueued, hblocked⟩
  refine ⟨fun key p hp => ?_, h.queueNodup, fun q key p hq => ?_, fun key p henqueued hb => ?_⟩
  · obtain ⟨henqueued, hblocked⟩ := h.queued key p hp
    exact hplace key p (Or.inl hp) henqueued hblocked
  · rw [htakes'] at hq
    obtain ⟨henqueued, hblocked, hout, hone⟩ := h.taken q key p hq
    obtain ⟨henqueued', hblocked'⟩ := hplace key p (Or.inr ⟨q, hq⟩) henqueued hblocked
    exact ⟨henqueued', hblocked', hout, fun q' hq' => hone q' ((htakes' q' key p).mp hq')⟩
  · simp only [htakes']
    by_cases hc : p = c
    · subst hc
      rw [Function.update_self] at henqueued hb
      obtain ⟨hold, hasleep⟩ := hnew key henqueued
      exact h.held key p hold fun ha => hb (hasleep.mpr ha)
    · rw [Function.update_of_ne hc] at henqueued hb
      exact h.held key p henqueued hb

/-- Who waits for the variable is blocked or not as before. -/
theorem Queues.blocked_congr (h : Queues calls queue blocked)
    (hblocked : ∀ key p, Enqueued key (calls p) → (blocked' p ↔ blocked p)) :
    Queues calls queue blocked' := by
  refine ⟨fun key p hp => ?_, h.queueNodup, fun q key p hq => ?_, fun key p henqueued hb => ?_⟩
  · obtain ⟨henqueued, hb⟩ := h.queued key p hp
    exact ⟨henqueued, fun ha => (hblocked key p henqueued).mpr (hb ha)⟩
  · obtain ⟨henqueued, hb, hrest⟩ := h.taken q key p hq
    exact ⟨henqueued, fun ha => (hblocked key p henqueued).mpr (hb ha), hrest⟩
  · exact h.held key p henqueued fun ha => (hblocked key p henqueued).mp (hb ha)

/-- The processes that were woken or blocked have just called `mutex_lock`. -/
theorem Queues.blocked_afterLock (h : Queues calls queue blocked) (hafter : AfterLock (calls c))
    (hblocked : ∀ a, a ≠ c → (blocked' a ↔ blocked a)) : Queues calls queue blocked' := by
  refine h.blocked_congr fun key p henqueued => hblocked p ?_
  rintro rfl
  exact henqueued.not_afterLock hafter

theorem Queues.enqueue (h : Queues calls queue blocked)
    (hcall : calls c = some (.wait key lockKey .enqueue)) (hkey : queue' key = queue key ++ [c])
    (hother : ∀ k, k ≠ key → queue' k = queue k) :
    Queues (Function.update calls c (some (.wait key lockKey .unlockQueue))) queue' blocked := by
  set calls' := Function.update calls c (some (.wait key lockKey .unlockQueue)) with hcalls'
  have hsame : ∀ p, p ≠ c → calls' p = calls p := fun p hp => Function.update_of_ne hp _ _
  have hself : calls' c = some (.wait key lockKey .unlockQueue) := Function.update_self ..
  have hout := h.not_queued (c := c) fun k => by simp [hcall, Enqueued, Call.enqueued]
  have hmem := mem_append_iff hkey hother
  have htakes : ∀ q k p, Takes (calls' q) k p ↔ Takes (calls q) k p := fun q k p => by
    refine update_iff (F := fun call => Takes call k p) ?_ q
    rw [hcall]
    exact iff_of_false not_takes_wait not_takes_wait
  refine ⟨fun k p hp => ?_, fun k => ?_, fun q k p hq => ?_, fun k p henqueued hb => ?_⟩
  · rcases (hmem k p).mp hp with hp | ⟨rfl, rfl⟩
    · rw [hsame p fun he => (hout k).1 (he ▸ hp)]
      exact h.queued k p hp
    · rw [hself]
      simp [Enqueued, Asleep, Call.enqueued, Call.asleep]
  · by_cases hk : k = key
    · subst hk
      rw [hkey, List.nodup_append_comm]
      exact List.nodup_cons.mpr ⟨(hout k).1, h.queueNodup k⟩
    · rw [hother k hk]
      exact h.queueNodup k
  · rw [htakes] at hq
    have hpc : p ≠ c := fun he => (hout k).2 q (he ▸ hq)
    obtain ⟨henqueued, hb, hnot, hone⟩ := h.taken q k p hq
    rw [hsame p hpc]
    refine ⟨henqueued, hb, fun hin => ?_, fun q' hq' => hone q' ((htakes q' k p).mp hq')⟩
    exact ((hmem k p).mp hin).elim hnot fun he => hpc he.2
  · simp only [htakes, hmem]
    by_cases hpc : p = c
    · subst hpc
      rw [hself] at henqueued
      simp only [Enqueued, Option.any_some, Call.enqueued, Bool.and_eq_true,
        decide_eq_true_eq] at henqueued
      exact Or.inl (Or.inr ⟨henqueued.1.symm, rfl⟩)
    · rw [hsame p hpc] at henqueued hb
      exact (h.held k p henqueued hb).imp_left Or.inl

/-- A process that blocks itself has not been woken before. -/
theorem Queues.block (h : Queues calls queue blocked)
    (hcall : calls c = some (.wait key lockKey .block))
    (hblocked : ∀ a, blocked' a ↔ a = c ∨ blocked a) :
    Queues (Function.update calls c (some (.wait key lockKey .yield))) queue blocked' := by
  set calls' := Function.update calls c (some (.wait key lockKey .yield)) with hcalls'
  have hsame : ∀ p, p ≠ c → calls' p = calls p := fun p hp => Function.update_of_ne hp _ _
  have hself : calls' c = some (.wait key lockKey .yield) := Function.update_self ..
  have htakes : ∀ q k p, Takes (calls' q) k p ↔ Takes (calls q) k p := fun q k p => by
    refine update_iff (F := fun call => Takes call k p) ?_ q
    rw [hcall]
    exact iff_of_false not_takes_wait not_takes_wait
  have hplace : ∀ k p, Enqueued k (calls p) → (Asleep k (calls p) → blocked p) →
      Enqueued k (calls' p) ∧ (Asleep k (calls' p) → blocked' p) := by
    intro k p henqueued hb
    by_cases hpc : p = c
    · subst hpc
      rw [hself]
      refine ⟨?_, fun _ => (hblocked p).mpr (Or.inl rfl)⟩
      simpa [hcall, Enqueued, Call.enqueued] using henqueued
    · rw [hsame p hpc]
      exact ⟨henqueued, fun ha => (hblocked p).mpr (Or.inr (hb ha))⟩
  refine ⟨fun k p hp => ?_, h.queueNodup, fun q k p hq => ?_, fun k p henqueued hb => ?_⟩
  · obtain ⟨henqueued, hb⟩ := h.queued k p hp
    exact hplace k p henqueued hb
  · rw [htakes] at hq
    obtain ⟨henqueued, hb, hout, hone⟩ := h.taken q k p hq
    obtain ⟨henqueued', hb'⟩ := hplace k p henqueued hb
    exact ⟨henqueued', hb', hout, fun q' hq' => hone q' ((htakes q' k p).mp hq')⟩
  · simp only [htakes]
    by_cases hpc : p = c
    · subst hpc
      rw [hself] at henqueued
      refine h.held k p ?_ fun ha => ?_
      · simpa [hcall, Enqueued, Call.enqueued] using henqueued
      · simp [hcall, Asleep, Call.asleep] at ha
    · rw [hsame p hpc] at henqueued hb
      exact h.held k p henqueued fun ha => ((hblocked p).mp (hb ha)).resolve_left hpc

/-- A process in a call of `cond_signal` or `cond_broadcast` does not wait. -/
theorem waits_update_iff (hcall : calls q = some (.wake kind key place record)) (place' : WakePlace)
    (record' : Record) (k : ℤ) (a : ℕ) :
    let calls' := Function.update calls q (some (.wake kind key place' record'))
    (Enqueued k (calls' a) ↔ Enqueued k (calls a)) ∧ (Asleep k (calls' a) ↔ Asleep k (calls a)) ∧
      (Between k (calls' a) ↔ Between k (calls a)) := by
  refine ⟨update_iff (F := Enqueued k) ?_ a, update_iff (F := Asleep k) ?_ a,
    update_iff (F := Between k) ?_ a⟩
  · rw [hcall]
    exact Iff.rfl
  · rw [hcall]
    exact Iff.rfl
  · rw [hcall]
    exact Iff.rfl

/-- Process `q` takes the first one out of the queue. -/
theorem Queues.dequeue (h : Queues calls queue blocked)
    (hcall : calls q = some (.wake kind key .dequeue record))
    (hplace : place = .unlock p ∨ place = .wake p) {rest : List ℕ} (hkey : queue key = p :: rest)
    (hrest : queue' key = rest) (hother : ∀ k, k ≠ key → queue' k = queue k) (hp : p ≠ null) :
    Queues (Function.update calls q (some (.wake kind key place record))) queue' blocked := by
  set calls' := Function.update calls q (some (.wake kind key place record)) with hcalls'
  have hwaits := waits_update_iff hcall place record
  have hnone : ∀ k a, ¬ Takes (calls q) k a := by simp [hcall, Takes]
  have htakes : ∀ a k b, Takes (calls' a) k b ↔
      Takes (calls a) k b ∨ (a = q ∧ k = key ∧ b = p) := by
    intro a k b
    by_cases ha : a = q
    · subst ha
      rw [hcalls', Function.update_self]
      simp only [hnone, false_or, true_and]
      have htaken : Takes (some (.wake kind key place record)) key p :=
        ⟨hp, kind, record, by rcases hplace with rfl | rfl <;> simp⟩
      refine ⟨fun hb => htaken.eq hb, ?_⟩
      rintro ⟨rfl, rfl⟩
      exact htaken
    · rw [hcalls', Function.update_of_ne ha]
      simp [ha]
  have hfirst : p ∈ queue key := by
    rw [hkey]
    exact List.mem_cons_self
  have hnodup := h.queueNodup key
  rw [hkey, List.nodup_cons] at hnodup
  have hsub : ∀ k a, a ∈ queue' k → a ∈ queue k := fun k a => mem_of_rest hkey hrest hother
  refine ⟨fun k a ha => ?_, fun k => ?_, fun a k b hab => ?_, fun k a ha hb => ?_⟩
  · rw [(hwaits k a).1, (hwaits k a).2.1]
    exact h.queued k a (hsub k a ha)
  · by_cases hk : k = key
    · subst hk
      rw [hrest]
      exact hnodup.2
    · rw [hother k hk]
      exact h.queueNodup k
  · rw [(hwaits k b).1, (hwaits k b).2.1]
    simp only [htakes]
    rcases (htakes a k b).mp hab with hold | ⟨rfl, rfl, rfl⟩
    · obtain ⟨hin, hb, hout, hone⟩ := h.taken a k b hold
      refine ⟨hin, hb, fun hmem => hout (hsub k b hmem), fun q' hq' => ?_⟩
      rcases hq' with hq' | ⟨-, rfl, rfl⟩
      · exact hone q' hq'
      · exact absurd hfirst hout
    · obtain ⟨hin, hb⟩ := h.queued k b hfirst
      refine ⟨hin, hb, by rw [hrest]; exact hnodup.1, fun q' hq' => ?_⟩
      rcases hq' with hq' | ⟨rfl, -⟩
      · exact absurd hfirst (h.taken q' k b hq').2.2.1
      · rfl
  · simp only [htakes]
    rw [(hwaits k a).1] at ha
    rcases h.held k a ha fun has => hb ((hwaits k a).2.1.mpr has) with hin | ⟨q', hq'⟩
    · rcases mem_rest_or_first hkey hrest hother hin with hin | ⟨rfl, rfl⟩
      · exact Or.inl hin
      · exact Or.inr ⟨q, Or.inr ⟨rfl, rfl, rfl⟩⟩
    · exact Or.inr ⟨q', Or.inl hq'⟩

/-- Process `q` makes the one ready that it has taken out of the queue. -/
theorem Queues.wake (h : Queues calls queue blocked) {place' : WakePlace} {record' : Record}
    (hcall : calls q = some (.wake kind key place record)) (htakes : Takes (calls q) key p)
    (hasleep : Asleep key (calls p)) (hblocked : ∀ a, blocked' a ↔ blocked a ∧ a ≠ p)
    (hplace : ∀ k a, ¬ Takes (some (.wake kind key place' record')) k a) :
    Queues (Function.update calls q (some (.wake kind key place' record'))) queue blocked' := by
  set calls' := Function.update calls q (some (.wake kind key place' record')) with hcalls'
  have hwaits := waits_update_iff hcall place' record'
  have htakes' : ∀ a k b, Takes (calls' a) k b ↔ a ≠ q ∧ Takes (calls a) k b := by
    intro a k b
    by_cases ha : a = q
    · rw [ha, hcalls', Function.update_self]
      simp [hplace]
    · rw [hcalls', Function.update_of_ne ha]
      simp [ha]
  obtain ⟨hp, -, hout, hone⟩ := h.taken q key p htakes
  -- the process that is woken is in no queue, and nobody else has taken it
  have hne : ∀ k a, (a ∈ queue k ∨ ∃ q', q' ≠ q ∧ Takes (calls q') k a) → a ≠ p := by
    rintro k a hin rfl
    rcases hin with hin | ⟨q', hq', htake⟩
    · obtain rfl := (h.queued k a hin).1.key_eq hp
      exact hout hin
    · obtain rfl := (h.taken q' k a htake).1.key_eq hp
      exact hq' (hone q' htake)
  refine ⟨fun k a ha => ?_, h.queueNodup, fun a k b hab => ?_, fun k a ha hb => ?_⟩
  · rw [(hwaits k a).1, (hwaits k a).2.1]
    obtain ⟨hin, hb⟩ := h.queued k a ha
    exact ⟨hin, fun has => (hblocked a).mpr ⟨hb has, hne k a (Or.inl ha)⟩⟩
  · obtain ⟨haq, hold⟩ := (htakes' a k b).mp hab
    obtain ⟨hin, hb, hnot, hunique⟩ := h.taken a k b hold
    rw [(hwaits k b).1, (hwaits k b).2.1]
    exact ⟨hin, fun has => (hblocked b).mpr ⟨hb has, hne k b (Or.inr ⟨a, haq, hold⟩)⟩, hnot,
      fun q' hq' => hunique q' ((htakes' q' k b).mp hq').2⟩
  · rw [(hwaits k a).1] at ha
    have hawake : Asleep k (calls a) → blocked a ∧ a ≠ p := fun has =>
      (hblocked a).mp (hb ((hwaits k a).2.1.mpr has))
    have hap : a ≠ p := by
      rintro rfl
      obtain rfl := ha.key_eq hp
      exact (hawake hasleep).2 rfl
    refine (h.held k a ha fun has => (hawake has).1).imp_right ?_
    rintro ⟨q', hq'⟩
    refine ⟨q', (htakes' q' k a).mpr ⟨?_, hq'⟩⟩
    rintro rfl
    exact hap (htakes.eq hq').2

/-! ### The records -/

/-- The call of `c` goes on, and the queues are as before. -/
theorem Records.goto (h : Records calls queue)
    (hbetween : ∀ key, Between key (calls c) → Between key new)
    (hleft : ∀ kind key place record, new = some (.wake kind key place record) →
      ∀ p, record.left p = true → Between key (calls p) ∨ p ∈ queue key)
    (hprogress : ∀ call, new = some call → call.Progress) :
    Records (Function.update calls c new) queue := by
  have hbetween' : ∀ key p, Between key (calls p) →
      Between key (Function.update calls c new p) := by
    intro key p hp
    by_cases hc : p = c
    · rw [hc] at hp ⊢
      rw [Function.update_self]
      exact hbetween key hp
    · rwa [Function.update_of_ne hc]
  refine ⟨fun q kind key place record hq p hp => ?_, fun q call hq => ?_⟩
  · by_cases hc : q = c
    · rw [hc, Function.update_self] at hq
      exact (hleft kind key place record hq p hp).imp_left (hbetween' key p)
    · rw [Function.update_of_ne hc] at hq
      exact (h.left q kind key place record hq p hp).imp_left (hbetween' key p)
  · by_cases hc : q = c
    · rw [hc, Function.update_self] at hq
      exact hprogress call hq
    · rw [Function.update_of_ne hc] at hq
      exact h.progress q call hq

/-- A process that was on the way to the queue is in it now. -/
theorem Records.enqueue (h : Records calls queue)
    (hcall : calls c = some (.wait key lockKey .enqueue)) (hkey : queue' key = queue key ++ [c])
    (hother : ∀ k, k ≠ key → queue' k = queue k) :
    Records (Function.update calls c (some (.wait key lockKey .unlockQueue))) queue' := by
  have hmem := mem_append_iff hkey hother
  refine ⟨fun q kind k place record hq p hp => ?_, fun q call hq => ?_⟩
  · have hqc : q ≠ c := by
      rintro rfl
      simp at hq
    rw [Function.update_of_ne hqc] at hq
    have hold := h.left q kind k place record hq p hp
    by_cases hpc : p = c
    · subst hpc
      rw [hmem]
      rcases hold with hb | hin
      · have hk : key = k := by simpa [Between, hcall, Call.between] using hb
        exact Or.inr (Or.inr ⟨hk.symm, rfl⟩)
      · exact Or.inr (Or.inl hin)
    · rw [Function.update_of_ne hpc]
      exact hold.imp_right fun hin => (hmem k p).mpr (Or.inl hin)
  · by_cases hqc : q = c
    · rw [hqc, Function.update_self] at hq
      rw [← Option.some.inj hq]
      trivial
    · rw [Function.update_of_ne hqc] at hq
      exact h.progress q call hq

/-- A process that no record lists any more is taken out of the queue. -/
theorem Records.dequeue (h : Records calls queue)
    (hforgotten : ∀ a kind k place record, calls a = some (.wake kind k place record) →
      record.left p = false)
    (hkeep : ∀ k a, a ∈ queue k → a ∈ queue' k ∨ (k = key ∧ a = p)) : Records calls queue' := by
  refine ⟨fun q kind k place record hq a ha => ?_, h.progress⟩
  refine (h.left q kind k place record hq a ha).imp_right fun hin => (hkeep k a hin).resolve_right ?_
  rintro ⟨-, rfl⟩
  rw [hforgotten q kind k place record hq] at ha
  exact absurd ha Bool.false_ne_true

/-! ### The statements -/

/-- Another process runs. -/
theorem Sound.switch (h : Sound calls queue waiting blocked current) (hawake : ¬ blocked current') :
    Sound calls queue waiting blocked current' :=
  ⟨⟨fun hb => absurd hb hawake, h.parked, h.parkedNodup, h.parkedOnce⟩, h.toQueues, h.toRecords⟩

theorem Sound.suspend (h : Sound calls queue waiting blocked current) (hc : ¬ blocked c)
    (hafter : AfterLock (calls c)) {k : ℤ}
    (hwaiting : waiting' k = waiting k ∨ waiting' k = waiting k ++ [c])
    (hother : ∀ k', k' ≠ k → waiting' k' = waiting k')
    (hblocked : ∀ a, blocked' a ↔ a = c ∨ blocked a) (hawake : ¬ blocked' current') :
    Sound calls queue waiting' blocked' current' := by
  refine ⟨h.toLocks.suspend hc hafter hwaiting hother hblocked hawake,
    h.toQueues.blocked_afterLock hafter fun a ha => ?_, h.toRecords⟩
  simp [hblocked, ha]

theorem Sound.handOver (h : Sound calls queue waiting blocked current) {k : ℤ} {rest : List ℕ}
    (hw : waiting k = p :: rest) (hwaiting : waiting' k = rest)
    (hother : ∀ k', k' ≠ k → waiting' k' = waiting k')
    (hblocked : ∀ a, blocked' a ↔ blocked a ∧ a ≠ p) :
    Sound calls queue waiting' blocked' current := by
  have hafter := (h.parked k p (by simp [hw])).2
  refine ⟨h.toLocks.handOver hw hwaiting hother hblocked,
    h.toQueues.blocked_afterLock hafter fun a ha => ?_, h.toRecords⟩
  simp [hblocked, ha]

theorem Sound.enqueue (h : Sound calls queue waiting blocked current) (hc : ¬ blocked c)
    (hcall : calls c = some (.wait key lockKey .enqueue)) (hkey : queue' key = queue key ++ [c])
    (hother : ∀ k, k ≠ key → queue' k = queue k) :
    Sound (Function.update calls c (some (.wait key lockKey .unlockQueue))) queue' waiting blocked
      current :=
  ⟨h.toLocks.update hc, h.toQueues.enqueue hcall hkey hother,
    h.toRecords.enqueue hcall hkey hother⟩

theorem Sound.block (h : Sound calls queue waiting blocked current) (hc : ¬ blocked current)
    (hcall : calls current = some (.wait key lockKey .block))
    (hblocked : ∀ a, blocked' a ↔ a = current ∨ blocked a) :
    Sound (Function.update calls current (some (.wait key lockKey .yield))) queue waiting blocked'
      current := by
  refine ⟨h.toLocks.block hc hblocked, h.toQueues.block hcall hblocked,
    h.toRecords.goto (fun k hb => ?_) (fun _ _ _ _ he => ?_) fun call he => ?_⟩
  · simp [hcall, Between, Call.between] at hb
  · simp at he
  · rw [← Option.some.inj he]
    trivial

/-- The process that has blocked itself gives up the processor. -/
theorem Sound.yield (h : Sound calls queue waiting blocked current)
    (hcall : calls c = some (.wait key lockKey .yield)) (hawake : ¬ blocked current') :
    Sound (Function.update calls c (some (.wait key lockKey .relock))) queue waiting blocked
      current' := by
  have hafter : ¬ AfterLock (calls c) := by simp [hcall, AfterLock, Call.afterLock]
  have hold : ∀ k, (Enqueued k (some (.wait key lockKey .relock)) ↔ Enqueued k (calls c)) ∧
      (Asleep k (some (.wait key lockKey .relock)) ↔ Asleep k (calls c)) := fun k => by
    simp [hcall, Enqueued, Asleep, Call.enqueued, Call.asleep]
  refine ⟨h.toLocks.leave hafter hawake,
    h.toQueues.goto (fun k hin => ?_) (fun k hin => ⟨(hold k).1.mp hin, (hold k).2⟩) fun k p => ?_,
    h.toRecords.goto (fun k hb => ?_) (fun _ _ _ _ he => ?_) fun call he => ?_⟩
  · rw [(hold k).1]
    rcases hin with hin | ⟨q, hq⟩
    · exact (h.queued k _ hin).1
    · exact (h.taken q k _ hq).1
  · rw [hcall]
    exact iff_of_false not_takes_wait not_takes_wait
  · simp [hcall, Between, Call.between] at hb
  · simp at he
  · rw [← Option.some.inj he]
    trivial

section

variable (p) (call : Option Call)

theorem enqueued_drop : Enqueued key (call.map (Call.drop p)) ↔ Enqueued key call := by
  rcases call with _ | _ | _ <;> exact Iff.rfl

theorem asleep_drop : Asleep key (call.map (Call.drop p)) ↔ Asleep key call := by
  rcases call with _ | _ | _ <;> exact Iff.rfl

theorem between_drop : Between key (call.map (Call.drop p)) ↔ Between key call := by
  rcases call with _ | _ | _ <;> exact Iff.rfl

theorem afterLock_drop : AfterLock (call.map (Call.drop p)) ↔ AfterLock call := by
  rcases call with _ | _ | ⟨_, _, place, _⟩
  · exact Iff.rfl
  · exact Iff.rfl
  · cases place <;> exact Iff.rfl

theorem takes_drop {p' : ℕ} : Takes (call.map (Call.drop p)) key p' ↔ Takes call key p' := by
  rcases call with _ | _ | ⟨kind, k, place, record⟩
  · simp [Takes]
  · simp [Takes, Call.drop]
  · simp only [Takes, Option.map_some, Call.drop, Option.some.injEq, Call.wake.injEq]
    constructor
    · rintro ⟨hp, -, -, ⟨-, rfl, rfl, -⟩ | ⟨-, rfl, rfl, -⟩⟩
      · exact ⟨hp, kind, record, Or.inl ⟨rfl, rfl, rfl, rfl⟩⟩
      · exact ⟨hp, kind, record, Or.inr ⟨rfl, rfl, rfl, rfl⟩⟩
    · rintro ⟨hp, -, -, ⟨-, rfl, rfl, -⟩ | ⟨-, rfl, rfl, -⟩⟩
      · exact ⟨hp, kind, _, Or.inl ⟨rfl, rfl, rfl, rfl⟩⟩
      · exact ⟨hp, kind, _, Or.inr ⟨rfl, rfl, rfl, rfl⟩⟩

end

theorem Call.Progress.drop {call : Call} (h : call.Progress) (p : ℕ) : (call.drop p).Progress := by
  have hleft : ∀ left : ℕ → Bool, (∀ q, left q = false) → ∀ q, (left q && q ≠ p) = false :=
    fun left hl q => by rw [hl q, Bool.false_and]
  cases call with
  | wait key lockKey place => exact h
  | wake kind key place record =>
    cases kind <;> cases place <;>
      first
        | exact h
        | exact h.imp_right (hleft record.left)
        | exact ⟨h.1, hleft record.left h.2⟩
        | exact hleft record.left h

/-- The records forget the process. -/
theorem Sound.drop (h : Sound calls queue waiting blocked current) (p : ℕ) :
    Sound (fun a => (calls a).map (Call.drop p)) queue waiting blocked current := by
  refine ⟨⟨fun hb => ?_, fun k a ha => ?_, h.parkedNodup, h.parkedOnce⟩,
    ⟨fun k a ha => ?_, h.queueNodup, fun a k b hab => ?_, fun k a ha hb => ?_⟩,
    ⟨fun a kind k place record ha b hb => ?_, fun a call ha => ?_⟩⟩
  · obtain ⟨k, lockKey, hwait⟩ := h.running hb
    exact ⟨k, lockKey, by rw [hwait]; rfl⟩
  · rw [afterLock_drop]
    exact h.parked k a ha
  · rw [enqueued_drop, asleep_drop]
    exact h.queued k a ha
  · simp only [takes_drop, enqueued_drop, asleep_drop] at hab ⊢
    exact h.taken a k b hab
  · simp only [takes_drop, enqueued_drop, asleep_drop] at ha hb ⊢
    exact h.held k a ha hb
  · rw [between_drop]
    obtain ⟨call, hcall, hdrop⟩ := Option.map_eq_some_iff.mp ha
    cases call with
    | wait k' lockKey place' => simp [Call.drop] at hdrop
    | wake kind' k' place' record' =>
      obtain ⟨rfl, rfl, rfl, rfl⟩ := Call.wake.inj hdrop
      obtain ⟨hleft, -⟩ := by simpa using hb
      exact h.left a _ _ _ record' hcall b hleft
  · obtain ⟨call', hcall, rfl⟩ := Option.map_eq_some_iff.mp ha
    exact (h.progress a call' hcall).drop p

theorem not_left_drop (h : call.map (Call.drop p) = some (.wake kind key place record)) :
    record.left p = false := by
  obtain ⟨call', -, hdrop⟩ := Option.map_eq_some_iff.mp h
  cases call' with
  | wait k lockKey place' => simp [Call.drop] at hdrop
  | wake kind' k place' record' =>
    obtain ⟨rfl, rfl, rfl, rfl⟩ := Call.wake.inj hdrop
    simp

/-- What a call of `cond_signal` or `cond_broadcast` does keeps its record. -/
theorem Sound.records_goto (h : Sound calls queue waiting blocked current) {place' : WakePlace}
    {record' : Record} (hcall : calls q = some (.wake kind key place record))
    (hleft : record'.left = record.left) (hprogress : (Call.wake kind key place' record').Progress) :
    Records (Function.update calls q (some (.wake kind key place' record'))) queue := by
  refine h.toRecords.goto (fun k hb => ?_) (fun kind' k place'' record'' he p hp => ?_)
    fun call he => ?_
  · simp [hcall, Between, Call.between] at hb
  · obtain ⟨rfl, rfl, rfl, rfl⟩ := Call.wake.inj (Option.some.inj he)
    rw [hleft] at hp
    exact h.left q kind key place record hcall p hp
  · rw [← Option.some.inj he]
    exact hprogress

theorem Sound.dequeue (h : Sound calls queue waiting blocked current) (hq : ¬ blocked q)
    (hcall : calls q = some (.wake kind key .dequeue record))
    (hplace : place = .unlock p ∨ place = .wake p) {rest : List ℕ} (hkey : queue key = p :: rest)
    (hrest : queue' key = rest) (hother : ∀ k, k ≠ key → queue' k = queue k) (hp : p ≠ null)
    (hforgotten : ∀ a kind k place record, calls a = some (.wake kind k place record) →
      record.left p = false)
    (hprogress : (Call.wake kind key place record).Progress) :
    Sound (Function.update calls q (some (.wake kind key place record))) queue' waiting blocked
      current := by
  have hrecords := h.records_goto hcall rfl hprogress
  refine ⟨h.toLocks.update hq, h.toQueues.dequeue hcall hplace hkey hrest hother hp,
    hrecords.dequeue (fun a kind' k place' record' ha => ?_)
      fun k a => mem_rest_or_first hkey hrest hother⟩
  by_cases haq : a = q
  · rw [haq, Function.update_self] at ha
    obtain ⟨rfl, rfl, rfl, rfl⟩ := Call.wake.inj (Option.some.inj ha)
    exact hforgotten q kind key _ record hcall
  · rw [Function.update_of_ne haq] at ha
    exact hforgotten a kind' k place' record' ha

theorem Sound.wake (h : Sound calls queue waiting blocked current) (hq : ¬ blocked q)
    {place' : WakePlace} {record' : Record}
    (hcall : calls q = some (.wake kind key place record)) (htakes : Takes (calls q) key p)
    (hasleep : Asleep key (calls p)) (hblocked : ∀ a, blocked' a ↔ blocked a ∧ a ≠ p)
    (hplace : ∀ k a, ¬ Takes (some (.wake kind key place' record')) k a)
    (hleft : record'.left = record.left)
    (hprogress : (Call.wake kind key place' record').Progress) :
    Sound (Function.update calls q (some (.wake kind key place' record'))) queue waiting blocked'
      current :=
  ⟨(h.toLocks.wake hasleep.enqueued.not_afterLock hblocked).update
      fun hb => hq ((hblocked q).mp hb).1,
    h.toQueues.wake hcall htakes hasleep hblocked hplace, h.records_goto hcall hleft hprogress⟩

/-! ### A running process goes on -/

/-- The process stays where it is for the queue of the variable. -/
theorem Sound.proceed (h : Sound calls queue waiting blocked current) (hc : ¬ blocked c)
    (henqueued : ∀ key, Enqueued key new ↔ Enqueued key (calls c))
    (hasleep : ∀ key, Asleep key new ↔ Asleep key (calls c))
    (htakes : ∀ key p, Takes new key p ↔ Takes (calls c) key p)
    (hbetween : ∀ key, Between key (calls c) → Between key new)
    (hleft : ∀ kind key place record, new = some (.wake kind key place record) →
      ∀ p, record.left p = true → Between key (calls p) ∨ p ∈ queue key)
    (hprogress : ∀ call, new = some call → call.Progress) :
    Sound (Function.update calls c new) queue waiting blocked current := by
  refine ⟨h.toLocks.update hc, h.toQueues.goto (fun key hin => ?_)
    (fun key hin => ⟨(henqueued key).mp hin, hasleep key⟩) htakes,
    h.toRecords.goto hbetween hleft hprogress⟩
  rw [henqueued]
  rcases hin with hin | ⟨q, hq⟩
  · exact (h.queued key c hin).1
  · exact (h.taken q key c hq).1

theorem Sound.proceedWait (h : Sound calls queue waiting blocked current) (hc : ¬ blocked c)
    {place place' : WaitPlace} (hcall : calls c = some (.wait key lockKey place))
    (henqueued : ∀ k, Call.enqueued k (.wait key lockKey place') =
      Call.enqueued k (.wait key lockKey place))
    (hasleep : ∀ k, Call.asleep k (.wait key lockKey place') =
      Call.asleep k (.wait key lockKey place))
    (hbetween : ∀ k, Call.between k (.wait key lockKey place) = true →
      Call.between k (.wait key lockKey place') = true) :
    Sound (Function.update calls c (some (.wait key lockKey place'))) queue waiting blocked
      current := by
  refine h.proceed hc (fun k => ?_) (fun k => ?_) (fun k p => ?_) (fun k hb => ?_)
    (fun _ _ _ _ he => ?_) fun call he => ?_
  · simp [Enqueued, hcall, henqueued]
  · simp [Asleep, hcall, hasleep]
  · rw [hcall]
    exact iff_of_false not_takes_wait not_takes_wait
  · rw [hcall] at hb
    exact hbetween k hb
  · simp at he
  · rw [← Option.some.inj he]
    trivial

/-- A process that can go on behind its `_yield` has been woken. -/
theorem Sound.proceedRelock (h : Sound calls queue waiting blocked current) (hc : ¬ blocked c)
    (hcall : calls c = some (.wait key lockKey .relock)) :
    Sound (Function.update calls c (some (.wait key lockKey .ret))) queue waiting blocked
      current := by
  refine ⟨h.toLocks.update hc,
    h.toQueues.goto (fun k hin => ?_) (fun k hin => ?_) fun k p => ?_,
    h.toRecords.goto (fun k hb => ?_) (fun _ _ _ _ he => ?_) fun call he => ?_⟩
  · have hplace : Enqueued k (calls c) ∧ (Asleep k (calls c) → blocked c) := by
      rcases hin with hin | ⟨q, hq⟩
      · exact h.queued k c hin
      · exact ⟨(h.taken q k c hq).1, (h.taken q k c hq).2.1⟩
    refine absurd (hplace.2 ?_) hc
    simpa [Asleep, Enqueued, hcall, Call.asleep, Call.enqueued] using hplace.1
  · simp [Enqueued, Call.enqueued] at hin
  · rw [hcall]
    exact iff_of_false not_takes_wait not_takes_wait
  · simp [hcall, Between, Call.between] at hb
  · simp at he
  · rw [← Option.some.inj he]
    trivial

theorem Sound.proceedWake (h : Sound calls queue waiting blocked current) (hc : ¬ blocked c)
    {place place' : WakePlace} (hcall : calls c = some (.wake kind key place record))
    (htakes : ∀ k p, Takes (some (.wake kind key place' record)) k p ↔
      Takes (some (.wake kind key place record)) k p)
    (hprogress : (Call.wake kind key place' record).Progress) :
    Sound (Function.update calls c (some (.wake kind key place' record))) queue waiting blocked
      current := by
  refine h.proceed hc (fun k => ?_) (fun k => ?_) (fun k p => ?_) (fun k hb => ?_)
    (fun kind' k place'' record' he p hp => ?_) fun call he => ?_
  · rw [hcall]
    exact Iff.rfl
  · rw [hcall]
    exact Iff.rfl
  · rw [hcall, htakes]
  · simp [hcall, Between, Call.between] at hb
  · obtain ⟨rfl, rfl, rfl, rfl⟩ := Call.wake.inj (Option.some.inj he)
    exact h.left c kind key place record hcall p hp
  · rw [← Option.some.inj he]
    exact hprogress

/-- A call returns. -/
theorem Sound.proceedNone (h : Sound calls queue waiting blocked current) (hc : ¬ blocked c)
    (henqueued : ∀ key, ¬ Enqueued key (calls c)) (htakes : ∀ key p, ¬ Takes (calls c) key p)
    (hbetween : ∀ key, ¬ Between key (calls c)) :
    Sound (Function.update calls c none) queue waiting blocked current := by
  refine h.proceed hc (fun k => ?_) (fun k => ?_) (fun k p => ?_) (fun k hb => ?_)
    (fun _ _ _ _ he => ?_) fun call he => ?_
  · exact iff_of_false (not_waits_none k c).1 (henqueued k)
  · exact iff_of_false (not_waits_none k c).2.1 fun ha => henqueued k ha.enqueued
  · exact iff_of_false (not_waits_none k p).2.2.2 (htakes k p)
  · exact absurd hb (hbetween k)
  · simp at he
  · simp at he

/-- A process that is in no call makes one. -/
theorem Sound.begin (h : Sound calls queue waiting blocked current) (hc : ¬ blocked c)
    (hnone : calls c = none) {call : Call} (henqueued : ∀ key, Call.enqueued key call = false)
    (htakes : ∀ key p, ¬ Takes (some call) key p)
    (hleft : ∀ kind key place record, call = .wake kind key place record →
      ∀ p, record.left p = true → Between key (calls p) ∨ p ∈ queue key)
    (hprogress : call.Progress) :
    Sound (Function.update calls c (some call)) queue waiting blocked current := by
  refine h.proceed hc (fun k => ?_) (fun k => ?_) (fun k p => ?_) (fun k hb => ?_)
    (fun kind key place record he => hleft kind key place record (Option.some.inj he))
    fun call' he => ?_
  · rw [hnone]
    exact iff_of_false (by simp [Enqueued, henqueued]) (not_waits_none k c).1
  · rw [hnone]
    refine iff_of_false (fun ha => ?_) (not_waits_none k c).2.1
    simpa [Enqueued, henqueued] using ha.enqueued
  · rw [hnone]
    exact iff_of_false (htakes k p) (not_waits_none k p).2.2.2
  · rw [hnone] at hb
    exact absurd hb (not_waits_none k c).2.2.1
  · rw [← Option.some.inj he]
    exact hprogress

end

end GatOS.CondCalls
