import GatOS.SemaphoreFrame

/-!
# The table of mutexes

`CMPXCHG8B` compares and replaces the lock word together with the field behind it. In every state
that calls lead to this is a test and set of the lock word alone.
-/
namespace GatOS.Sync
open Scheduler Transition

/-! ### The instruction -/

/-- The eight bytes at the address of the field `mutex`; `cardinalBlocked` is the upper half. -/
def Mutex.quadWord (m : Mutex) : BitVec 64 :=
  BitVec.ofNat 32 m.cardinalBlocked ++ BitVec.ofInt 32 m.mutex

def Mutex.setQuadWord (w : BitVec 64) (m : Mutex) : Mutex :=
  { m with
    mutex := (w.extractLsb' 0 32).toInt
    cardinalBlocked := (w.extractLsb' 32 32).toNat }

/-- The zero flag, and the eight bytes of the memory after the instruction. -/
def cmpxchg8b (edxEax ecxEbx memory : BitVec 64) : Bool × BitVec 64 :=
  if memory = edxEax then (true, ecxEbx) else (false, memory)

/-- `_testAndSet` of `lock.asm`. -/
def testAndSetAsm (m : Mutex) : Bool × Mutex :=
  let r := cmpxchg8b 0 1 m.quadWord
  (r.1, m.setQuadWord r.2)

/-- A test and set of the lock word alone. -/
def plainTestAndSet (m : Mutex) : Bool × Mutex :=
  if m.mutex = 0 then (true, { m with mutex := 1 }) else (false, m)

section

variable {m : Mutex}

/-- Both fields have values of their types. -/
structure Mutex.InRange (m : Mutex) : Prop where
  mutex : MachineInt.intMin ≤ m.mutex ∧ m.mutex ≤ MachineInt.intMax
  cardinalBlocked : m.cardinalBlocked < 2 ^ 32

theorem Mutex.InRange.lower (h : m.InRange) : (BitVec.ofInt 32 m.mutex).toInt = m.mutex := by
  have := MachineInt.int32_eq h.mutex.1 h.mutex.2
  rwa [BitVec.toInt_ofInt]

theorem Mutex.InRange.upper (h : m.InRange) :
    (BitVec.ofNat 32 m.cardinalBlocked).toNat = m.cardinalBlocked := by
  rw [BitVec.toNat_ofNat, Nat.mod_eq_of_lt h.cardinalBlocked]

theorem Mutex.InRange.setQuadWord (h : m.InRange) : m.setQuadWord m.quadWord = m := by
  rw [Mutex.setQuadWord, Mutex.quadWord, BitVec.extractLsb'_append_eq_right,
    BitVec.extractLsb'_append_eq_left, h.lower, h.upper]

theorem Mutex.InRange.quadWord_eq_zero (h : m.InRange) :
    m.quadWord = 0 ↔ m.mutex = 0 ∧ m.cardinalBlocked = 0 := by
  constructor
  · intro hzero
    have hset := h.setQuadWord
    rw [hzero] at hset
    exact ⟨(congrArg Mutex.mutex hset).symm, (congrArg Mutex.cardinalBlocked hset).symm⟩
  · rintro ⟨hmutex, hcard⟩
    rw [Mutex.quadWord, hmutex, hcard]
    rfl

theorem testAndSetAsm_eq (h : m.InRange) : testAndSetAsm m = testAndSet m := by
  rw [testAndSetAsm, testAndSet, cmpxchg8b]
  by_cases hzero : m.quadWord = 0
  · rw [if_pos hzero, if_pos (h.quadWord_eq_zero.mp hzero)]
    rfl
  · rw [if_neg hzero, if_neg fun hf => hzero (h.quadWord_eq_zero.mpr hf)]
    exact congrArg _ h.setQuadWord

end

/-! ### The calls -/

/-- `getMutexRest` is a call of `getMutex` that goes on after it was suspended. -/
inductive TableCall
  | getMutex (name : ℕ) (garbage : ℤ)
  | getMutexRest (name : ℕ)
  | lockMutex (mutex garbage : ℤ)
  | freeMutex (mutex : ℤ)
  | closeMutex (index : ℤ)

def TableCall.run (k : Kernel) : TableCall → Option Kernel
  | .getMutex name garbage => (Sync.lockMutex k.adminMutex garbage k).bind fun r =>
      if r.1 then (Sync.getMutexRest name r.2).map Prod.snd else some r.2
  | .getMutexRest name => (Sync.getMutexRest name k).map Prod.snd
  | .lockMutex mutex garbage => (Sync.lockMutex mutex garbage k).map Prod.snd
  | .freeMutex mutex => Sync.freeMutex mutex k
  | .closeMutex index => Sync.closeMutex index k

/-- A call, in whatever state the processes and the memory are by then. -/
structure TableAction where
  sched : State
  strings : ℕ → List ℤ
  call : TableCall

/-- The pid of the process that calls is not negative. -/
def tableStep (k : Kernel) (a : TableAction) : Option Kernel :=
  if 0 ≤ getCurrentPid a.sched then a.call.run { k with sched := a.sched, strings := a.strings }
  else none

def IsTableStart (k : Kernel) : Prop := ∃ k₀, k = initializeMutexes k₀

def tableSystem : System Kernel TableAction := ofStep IsTableStart tableStep

/-! ### The invariant -/

structure Mutex.Sound (m : Mutex) : Prop where
  cardinal : m.cardinalBlocked = (waitersOf m.queue).length
  word : m.mutex = 0 ∨ m.mutex = 1
  free : m.mutex = 0 → m.cardinalBlocked = 0

def TableSound (k : Kernel) : Prop := ∀ i, (k.mutexes i).Sound

section

variable {m : Mutex} {k k' : Kernel} {i : ℤ}

theorem Mutex.Sound.bound (h : m.Sound) : m.cardinalBlocked ≤ maxBlockedQueueSize := by
  rw [h.cardinal]
  exact SlotArray.values_length_le _ _

theorem Mutex.Sound.inRange (h : m.Sound) : m.InRange := by
  constructor
  · rcases h.word with hm | hm
    · rw [hm]
      decide
    · rw [hm]
      decide
  · exact h.bound.trans_lt (by decide)

theorem Mutex.Sound.testAndSet_eq (h : m.Sound) : testAndSet m = plainTestAndSet m := by
  rw [testAndSet, plainTestAndSet]
  by_cases hmutex : m.mutex = 0
  · have hcard := h.free hmutex
    rw [if_pos ⟨hmutex, hcard⟩, if_pos hmutex, hcard]
  · rw [if_neg fun hf => hmutex hf.1, if_neg hmutex]

theorem sound_cleanMutex (m : Mutex) : (cleanMutex m).Sound :=
  ⟨by simp [cleanMutex, waitersOf, emptyQueue], Or.inl rfl, fun _ => rfl⟩

theorem tableSound_initializeMutexes (k : Kernel) : TableSound (initializeMutexes k) := by
  intro i
  have hclean := sound_cleanMutex (k.mutexes i)
  simp only [initializeMutexes]
  split_ifs
  · exact ⟨hclean.cardinal, hclean.word, hclean.free⟩
  · exact hclean

theorem TableSound.of_mutexes (h : TableSound k) (heq : k'.mutexes = k.mutexes) :
    TableSound k' := by
  intro i
  rw [heq]
  exact h i

theorem TableSound.setMutex (h : TableSound k) (hm : m.Sound) : TableSound (k.setMutex i m) := by
  intro j
  by_cases hj : j = i
  · rw [hj, Kernel.setMutex_self]
    exact hm
  · rw [Kernel.setMutex_ne k m hj]
    exact h j

theorem TableSound.yield (h : TableSound k) (hyield : k.yield = some k') : TableSound k' :=
  h.of_mutexes (yield_tables hyield).2.1

/-- A process joins the queue of a mutex that is locked. -/
theorem TableSound.lockMutex (h : TableSound k) (hpid : 0 ≤ k.pid) {garbage : ℤ} {returned : Bool}
    (hlock : Sync.lockMutex i garbage k = some (returned, k')) : TableSound k' := by
  rcases lockMutex_cases hpid (h i).cardinal hlock with
    ⟨-, -, rfl⟩ | ⟨-, -, hwaiters, -, rfl⟩ | ⟨-, hlocked, -, -, queue, hperm, hyield⟩ |
      ⟨-, -, -, -, hyield⟩
  · exact h
  · exact h.setMutex ⟨(h i).cardinal, Or.inr rfl, fun hf => absurd hf one_ne_zero⟩
  · have hone : (k.mutexes i).mutex = 1 := by
      refine (h i).word.resolve_left fun hzero => hlocked ⟨hzero, ?_⟩
      rw [← List.length_eq_zero_iff, ← (h i).cardinal]
      exact (h i).free hzero
    have hm : ({ k.mutexes i with
        queue := queue
        cardinalBlocked := (k.mutexes i).cardinalBlocked + 1 } : Mutex).Sound := by
      refine ⟨?_, (h i).word, fun hf => absurd (hone.symm.trans hf) one_ne_zero⟩
      show (k.mutexes i).cardinalBlocked + 1 = (waitersOf queue).length
      rw [(h i).cardinal, hperm.length_eq, List.length_cons]
    refine TableSound.yield ?_ hyield
    exact (h.setMutex hm).of_mutexes rfl
  · refine TableSound.yield ?_ hyield
    exact h.of_mutexes rfl

/-- The lock is handed over with the first waiter, or there is no waiter. -/
theorem TableSound.freeMutex (h : TableSound k) (hfree : Sync.freeMutex i k = some k') :
    TableSound k' := by
  rcases freeMutex_cases (h i).cardinal hfree with
    ⟨-, rfl⟩ | ⟨-, p, queue, hwaiters, rfl⟩ | ⟨-, hwaiters, rfl⟩
  · exact h
  · have hcard : (k.mutexes i).cardinalBlocked = (waitersOf queue).length + 1 := by
      rw [(h i).cardinal, hwaiters, List.length_cons]
    refine TableSound.setMutex (h.of_mutexes rfl) ⟨?_, (h i).word, fun hf => ?_⟩
    · show (k.mutexes i).cardinalBlocked - 1 = (waitersOf queue).length
      rw [hcard, Nat.add_sub_cancel]
    · have hzero := (h i).free hf
      rw [hcard] at hzero
      exact absurd hzero (Nat.succ_ne_zero _)
  · refine h.setMutex ⟨(h i).cardinal, Or.inl rfl, fun _ => ?_⟩
    show (k.mutexes i).cardinalBlocked = 0
    rw [(h i).cardinal, hwaiters, List.length_nil]

theorem TableSound.closeMutex (h : TableSound k) (hclose : Sync.closeMutex i k = some k') :
    TableSound k' := by
  rcases closeMutex_cases hclose with rfl | ⟨-, -, rfl⟩
  · exact h
  · exact h.setMutex ⟨(h i).cardinal, (h i).word, (h i).free⟩

/-- A slot is taken into use with the lock word and the queue it has. -/
theorem TableSound.getMutexRest (h : TableSound k) {name : ℕ}
    (hget : Sync.getMutexRest name k = some (i, k')) : TableSound k' := by
  rcases getMutexRest_cases hget with ⟨-, hfree⟩ | ⟨-, -, -, hfree⟩ | ⟨-, -, hfree⟩
  · exact h.freeMutex hfree
  · exact h.freeMutex hfree
  · refine TableSound.freeMutex ?_ hfree
    exact h.setMutex ⟨(h i).cardinal, (h i).word, (h i).free⟩

theorem run_tableSound (h : TableSound k) (hpid : 0 ≤ k.pid) {c : TableCall}
    (hrun : c.run k = some k') : TableSound k' := by
  cases c with
  | getMutex name garbage =>
    obtain ⟨⟨returned, k₁⟩, hlock, hrest⟩ := Option.bind_eq_some_iff.mp hrun
    have h₁ := h.lockMutex hpid hlock
    cases returned with
    | false =>
      obtain rfl := Option.some.inj hrest
      exact h₁
    | true =>
      obtain ⟨⟨j, k₂⟩, hget, rfl⟩ := Option.map_eq_some_iff.mp hrest
      exact h₁.getMutexRest hget
  | getMutexRest name =>
    obtain ⟨⟨j, k₂⟩, hget, rfl⟩ := Option.map_eq_some_iff.mp hrun
    exact h.getMutexRest hget
  | lockMutex mutex garbage =>
    obtain ⟨⟨returned, k₁⟩, hlock, rfl⟩ := Option.map_eq_some_iff.mp hrun
    exact h.lockMutex hpid hlock
  | freeMutex mutex => exact h.freeMutex hrun
  | closeMutex index => exact h.closeMutex hrun

theorem reachable_tableSound (h : tableSystem.Reachable k) : TableSound k := by
  induction h with
  | start hs =>
    obtain ⟨k₀, rfl⟩ := hs
    exact tableSound_initializeMutexes k₀
  | @next k k' a _ hstep ih =>
    simp only [tableSystem, ofStep, tableStep] at hstep
    split_ifs at hstep with hpid
    refine run_tableSound (k := { k with sched := a.sched, strings := a.strings }) ?_ hpid hstep
    exact ih.of_mutexes rfl

/-- `cardinalBlocked` counts the waiters, a free mutex has none, and the instruction is a test and
set of the lock word. -/
theorem mutex_table (h : tableSystem.Reachable k) (i : ℤ) :
    (k.mutexes i).cardinalBlocked =
        (k.mutexes i).queue.cells.countP (· ≠ noBlockedQueueValue) ∧
      (k.mutexes i).cardinalBlocked ≤ maxBlockedQueueSize ∧
      ((k.mutexes i).mutex = 0 → (k.mutexes i).cardinalBlocked = 0) ∧
      ((testAndSetAsm (k.mutexes i)).1 = true ↔ (k.mutexes i).mutex = 0) ∧
      (testAndSetAsm (k.mutexes i)).2.cardinalBlocked = (k.mutexes i).cardinalBlocked ∧
      testAndSetAsm (k.mutexes i) = plainTestAndSet (k.mutexes i) := by
  have hsound := reachable_tableSound h i
  have htest : testAndSetAsm (k.mutexes i) = plainTestAndSet (k.mutexes i) :=
    (testAndSetAsm_eq hsound.inRange).trans hsound.testAndSet_eq
  refine ⟨?_, hsound.bound, hsound.free, ?_, ?_, htest⟩
  · rw [hsound.cardinal, List.countP_eq_length_filter]
    rfl
  · rw [htest, plainTestAndSet]
    split_ifs with hmutex <;> simp [hmutex]
  · rw [htest, plainTestAndSet]
    split_ifs <;> rfl

end

/-- Three processes, the second of which runs. -/
def threeProcesses : State :=
  let s : State := ⟨fun _ => ⟨null, ⟨0, .ready⟩⟩, null, 0, 0, []⟩
  let s := (createProcess 0x3000 (createProcess 0x2000 (createProcess 0x1000 s).2).2).2
  { s with current := 0x2000 }

/-- The first mutex is locked by one process, two others wait for it, and it is handed on. -/
theorem mutex_table_handOff : ∃ k, tableSystem.Reachable k ∧
    ((k.mutexes 0).mutex, (k.mutexes 0).cardinalBlocked) = (1, 1) ∧
      (testAndSetAsm (k.mutexes 0)).1 = false := by
  obtain ⟨k, hk, hobserved⟩ := Option.map_eq_some_iff.mp
    (show (execute tableStep (initializeMutexes (zeroKernel (fun _ => ⟨null, ⟨0, .ready⟩⟩)
      fun _ => [])) ([.lockMutex 0 0, .lockMutex 0 0, .lockMutex 0 0, .freeMutex 0].map
        (TableAction.mk threeProcesses fun _ => []))).map
          (fun k => ((k.mutexes 0).mutex, (k.mutexes 0).cardinalBlocked)) =
            some (1, 1) by decide +kernel)
  have hreach := reachable_of_execute IsTableStart ⟨_, rfl⟩ hk
  refine ⟨k, hreach, hobserved, ?_⟩
  rw [← Bool.not_eq_true, (mutex_table hreach 0).2.2.2.1, (Prod.mk.inj hobserved).1]
  decide

end GatOS.Sync
