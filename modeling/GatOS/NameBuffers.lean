import GatOS.NameTable
import GatOS.MutexTable

/-!
# The names of mutexes and semaphores

`getMutex`, `semCreate` and `semOpen` compare a name with the texts at the addresses that the tables
keep. The programs can write there.
-/
namespace GatOS.NameBuffers
open Scheduler Sync NameTable Transition

/-! ### What the calls have answered -/

/-- `names` are the texts that the slots in use were created for, `log` the texts and the indexes of
the calls that have succeeded. A slot that is closed takes its calls with it. -/
structure Register where
  names : ℤ → Option (List ℤ)
  log : List (List ℤ × ℤ)

namespace Register

/-- A call gets a slot. `used` says whether the slot was in use before. -/
def enter (used : Bool) (name : List ℤ) (i : ℤ) (r : Register) : Register where
  names := if used then r.names else Function.update r.names i (some name)
  log := (name, i) :: r.log

def close (i : ℤ) (r : Register) : Register where
  names := Function.update r.names i none
  log := r.log.filter fun x => x.2 ≠ i

end Register

/-- Equal texts have equal indexes, and different texts have different ones. -/
def Identified (log : List (List ℤ × ℤ)) : Prop :=
  ∀ x ∈ log, ∀ y ∈ log, x.1 = y.1 ↔ x.2 = y.2

/-! ### The calls -/

structure State where
  kernel : Kernel
  mutexes : Register
  semaphores : Register

namespace State

/-- What `getMutex` does after `lockMutex(adminMutex)`. -/
def getMutexRest (name : ℕ) (s : State) : Option State :=
  let k := s.kernel
  (Sync.getMutexRest name k).map fun r =>
    { s with
      kernel := r.2
      mutexes := if r.1 = error then s.mutexes
        else s.mutexes.enter (k.mutexes r.1).used (k.strings name) r.1 }

/-- A process locks a mutex; whether the call has returned. -/
def lockMutex (mutex garbage : ℤ) (s : State) : Option (Bool × State) :=
  (Sync.lockMutex mutex garbage s.kernel).map fun r => (r.1, { s with kernel := r.2 })

def getMutex (name : ℕ) (garbage : ℤ) (s : State) : Option State :=
  (s.lockMutex s.kernel.adminMutex garbage).bind fun r =>
    if r.1 then r.2.getMutexRest name else some r.2

def closeMutex (index : ℤ) (s : State) : Option State :=
  (Sync.closeMutex index s.kernel).map fun k =>
    { s with
      kernel := k
      mutexes := if (s.kernel.mutexes index).used ∧ ¬ (k.mutexes index).used then
          s.mutexes.close index
        else s.mutexes }

/-- What `semCreate` does after `lockMutex(adminMutex)` in the call of `getMutex`. -/
def createSemaphoreRest (index : ℤ) (name : ℕ) (start pid : ℤ) (s : State) : Option State :=
  (s.getMutexRest name).bind fun t =>
    (Sync.createSemaphoreRest index name start pid s.kernel).map fun k => { t with kernel := k }

/-- What `semCreate` does after `lockMutex(semaphoreMutex)`. -/
def semCreateRest (name : ℕ) (start garbage : ℤ) (s : State) : Option State :=
  let k := s.kernel
  match getSemIndex name k with
  | some _ => some s
  | none =>
    match getFreePositionSemaphores k with
    | none => (Sync.freeMutex k.semaphoreMutex k).map fun k => { s with kernel := k }
    | some index =>
      let pid := k.pid
      let s := { s with
        kernel := createSemaphoreStart index name k
        semaphores := s.semaphores.enter false (k.strings name) index }
      (s.lockMutex k.adminMutex garbage).bind fun r =>
        if r.1 then r.2.createSemaphoreRest index name start pid else some r.2

def semCreate (name : ℕ) (start garbage : ℤ) (s : State) : Option State :=
  (s.lockMutex s.kernel.semaphoreMutex garbage).bind fun r =>
    if r.1 then r.2.semCreateRest name start garbage else some r.2

def semOpen (name : ℕ) (s : State) : State :=
  match getSemIndex name s.kernel with
  | none => s
  | some index =>
    { s with semaphores := s.semaphores.enter true (s.kernel.strings name) index }

def semClose (index : ℤ) (s : State) : Option State :=
  (Sync.semClose index s.kernel).map fun k =>
    { s with
      kernel := k
      semaphores := if (s.kernel.semaphores index).used ∧ ¬ (k.semaphores index).used then
          s.semaphores.close index
        else s.semaphores }

end State

/-- A call that was suspended in `lockMutex` goes on with its rest. -/
inductive Call
  | getMutex (name : ℕ) (garbage : ℤ)
  | getMutexRest (name : ℕ)
  | lockMutex (mutex garbage : ℤ)
  | freeMutex (mutex : ℤ)
  | closeMutex (index : ℤ)
  | semCreate (name : ℕ) (start garbage : ℤ)
  | semCreateRest (name : ℕ) (start garbage : ℤ)
  | createSemaphoreRest (index : ℤ) (name : ℕ) (start pid : ℤ)
  | semOpen (name : ℕ)
  | semClose (index : ℤ)

def Call.run (s : State) : Call → Option State
  | .getMutex name garbage => s.getMutex name garbage
  | .getMutexRest name => s.getMutexRest name
  | .lockMutex mutex garbage => (s.lockMutex mutex garbage).map Prod.snd
  | .freeMutex mutex => (Sync.freeMutex mutex s.kernel).map fun k => { s with kernel := k }
  | .closeMutex index => s.closeMutex index
  | .semCreate name start garbage => s.semCreate name start garbage
  | .semCreateRest name start garbage => s.semCreateRest name start garbage
  | .createSemaphoreRest index name start pid => s.createSemaphoreRest index name start pid
  | .semOpen name => some (s.semOpen name)
  | .semClose index => s.semClose index

/-- A call, in whatever state the processes and the memory are by then. -/
structure Action where
  sched : Scheduler.State
  strings : ℕ → List ℤ
  call : Call

/-- The processes and the texts in the memory have changed. -/
def State.elapse (s : State) (a : Action) : State :=
  { s with kernel := { s.kernel with sched := a.sched, strings := a.strings } }

def step (s : State) (a : Action) : Option State := a.call.run (s.elapse a)

/-- The name of the first mutex is the text at `NULL`. -/
def IsStart (s : State) : Prop :=
  ∃ k₀, s.kernel = initializeMutexes k₀ ∧ (∀ i, (k₀.semaphores i).used = false) ∧
    s.mutexes = ⟨fun i => if i = 0 then some (k₀.strings null) else none, []⟩ ∧
    s.semaphores = ⟨fun _ => none, []⟩

def nameSystem : System State Action := ofStep IsStart step

/-! ### The buffers -/

/-- Of the slots in use, the one that was created for the text has it, and no other one. -/
def Kept (n : ℕ) (used : ℤ → Bool) (text : ℤ → List ℤ) (r : Register) (name : List ℤ) : Prop :=
  ∀ i ∈ List.range n, used (i : ℤ) = true → (text (i : ℤ) = name ↔ r.names (i : ℤ) = some name)

instance (n : ℕ) (used : ℤ → Bool) (text : ℤ → List ℤ) (r : Register) (name : List ℤ) :
    Decidable (Kept n used text r name) :=
  inferInstanceAs (Decidable (∀ i ∈ List.range n, _ → (_ ↔ _)))

def mutexUsed (k : Kernel) (i : ℤ) : Bool := (k.mutexes i).used

def semaphoreUsed (k : Kernel) (i : ℤ) : Bool := (k.semaphores i).used

def MutexKept (s : State) (name : ℕ) : Prop :=
  Kept maxMutexes (mutexUsed s.kernel) (fun i => s.kernel.strings (s.kernel.mutexes i).name)
    s.mutexes (s.kernel.strings name)

def SemaphoreKept (s : State) (name : ℕ) : Prop :=
  Kept maxSemaphores (semaphoreUsed s.kernel)
    (fun i => s.kernel.strings (s.kernel.semaphores i).name) s.semaphores (s.kernel.strings name)

instance (s : State) (name : ℕ) : Decidable (MutexKept s name) :=
  inferInstanceAs (Decidable (Kept ..))

instance (s : State) (name : ℕ) : Decidable (SemaphoreKept s name) :=
  inferInstanceAs (Decidable (Kept ..))

/-- The buffers hold what the search of the call has to find there. -/
def Call.Kept (s : State) : Call → Prop
  | .getMutex name _ => MutexKept s name
  | .getMutexRest name => MutexKept s name
  | .semCreate name _ _ =>
    SemaphoreKept s name ∧ (getSemIndex name s.kernel = none → MutexKept s name)
  | .semCreateRest name _ _ =>
    SemaphoreKept s name ∧ (getSemIndex name s.kernel = none → MutexKept s name)
  | .createSemaphoreRest _ name _ _ => MutexKept s name
  | .semOpen name => SemaphoreKept s name
  | _ => True

instance (s : State) (c : Call) : Decidable (c.Kept s) :=
  match c with
  | .getMutex name _ | .getMutexRest name | .createSemaphoreRest _ name _ _ =>
    inferInstanceAs (Decidable (MutexKept s name))
  | .semCreate name _ _ | .semCreateRest name _ _ =>
    inferInstanceAs (Decidable (SemaphoreKept s name ∧ (_ = none → MutexKept s name)))
  | .semOpen name => inferInstanceAs (Decidable (SemaphoreKept s name))
  | .lockMutex _ _ | .freeMutex _ | .closeMutex _ | .semClose _ => inferInstanceAs (Decidable True)

/-! ### The invariant -/

structure Register.Sound (n : ℕ) (used : ℤ → Bool) (r : Register) : Prop where
  range : ∀ i, used i = true → 0 ≤ i ∧ i < n
  used_iff : ∀ i, (r.names i).isSome ↔ used i = true
  unique : Unique r.names
  logged : ∀ x ∈ r.log, r.names x.2 = some x.1

structure Invariant (s : State) : Prop where
  mutexes : s.mutexes.Sound maxMutexes (mutexUsed s.kernel)
  semaphores : s.semaphores.Sound maxSemaphores (semaphoreUsed s.kernel)

section

variable {n : ℕ} {used used' : ℤ → Bool} {r : Register} {name : List ℤ} {i : ℤ}

theorem Register.Sound.identified (h : r.Sound n used) : Identified r.log := by
  intro x hx y hy
  have hxn := h.logged x hx
  have hyn := h.logged y hy
  constructor
  · intro he
    exact h.unique x.2 y.2 x.1 hxn (he ▸ hyn)
  · intro he
    rw [he] at hxn
    exact Option.some.inj (hxn.symm.trans hyn)

/-- The search ends at the slot that was created for the name. -/
theorem Register.Sound.found (h : r.Sound n used) (hname : r.names i = some name) :
    (r.enter true name i).Sound n used := by
  refine ⟨h.range, h.used_iff, h.unique, fun x hx => ?_⟩
  rcases List.mem_cons.mp hx with rfl | hx
  · exact hname
  · exact h.logged x hx

theorem Register.Sound.created (h : r.Sound n used) (hi : 0 ≤ i ∧ i < n) (hfree : used i = false)
    (hnew : ∀ j, r.names j ≠ some name)
    (hused : ∀ j, used' j = if j = i then true else used j) :
    (r.enter false name i).Sound n used' := by
  have hnone : r.names i = none := by
    rw [← Option.not_isSome_iff_eq_none, h.used_iff, hfree]
    simp
  have hname : ∀ j, (r.enter false name i).names j = if j = i then some name else r.names j :=
    fun j => Function.update_apply ..
  refine ⟨fun j hj => ?_, fun j => ?_, fun j k x hj hk => ?_, fun x hx => ?_⟩
  · rw [hused] at hj
    split_ifs at hj with hji
    · exact hji ▸ hi
    · exact h.range j hj
  · rw [hname, hused]
    split_ifs
    · simp
    · exact h.used_iff j
  · rw [hname] at hj hk
    split_ifs at hj hk with hji hki hki
    · rw [hji, hki]
    · obtain rfl := Option.some.inj hj
      exact absurd hk (hnew k)
    · obtain rfl := Option.some.inj hk
      exact absurd hj (hnew j)
    · exact h.unique j k x hj hk
  · rw [hname]
    rcases List.mem_cons.mp hx with rfl | hx
    · exact if_pos rfl
    · have hold := h.logged x hx
      rw [if_neg fun he => ?_]
      · exact hold
      · rw [he, hnone] at hold
        cases hold

theorem Register.Sound.close (h : r.Sound n used)
    (hused : ∀ j, used' j = if j = i then false else used j) : (r.close i).Sound n used' := by
  have hname : ∀ j, (r.close i).names j = if j = i then none else r.names j :=
    fun j => Function.update_apply ..
  refine ⟨fun j hj => ?_, fun j => ?_, h.unique.mono fun j x hj => ?_, fun x hx => ?_⟩
  · rw [hused] at hj
    split_ifs at hj
    exact h.range j hj
  · rw [hname, hused]
    split_ifs
    · simp
    · exact h.used_iff j
  · rw [hname] at hj
    split_ifs at hj
    exact hj
  · obtain ⟨hx, hne⟩ := List.mem_filter.mp hx
    rw [hname, if_neg (by simpa using hne)]
    exact h.logged x hx

theorem Register.Sound.congr (h : r.Sound n used) (hused : ∀ i, used' i = used i) :
    r.Sound n used' := by
  obtain rfl : used' = used := funext hused
  exact h

theorem Kept.at_slot {text : ℤ → List ℤ} (hkept : Kept n used text r name)
    (hi : 0 ≤ i ∧ i < n) (hused : used i = true) : text i = name ↔ r.names i = some name := by
  obtain ⟨j, rfl⟩ := Int.eq_ofNat_of_zero_le hi.1
  exact hkept j (by simpa using hi.2) hused

/-- When no slot in use has the name, no slot was created for it. -/
theorem Kept.new {text : ℤ → List ℤ} (hkept : Kept n used text r name) (h : r.Sound n used)
    (hnone : ∀ i : ℤ, 0 ≤ i → i < n → used i = true → text i ≠ name) (j : ℤ) :
    r.names j ≠ some name := by
  intro hj
  have hused : used j = true := (h.used_iff j).mp (by simp [hj])
  obtain ⟨h0, hlt⟩ := h.range j hused
  exact hnone j h0 hlt hused ((hkept.at_slot ⟨h0, hlt⟩ hused).mpr hj)

end

/-! ### What the calls do to the tables -/

/-- The same slots are in use, and they keep the addresses of their names. -/
structure SameSlots (k k' : Kernel) : Prop where
  mutexes : ∀ i, (k'.mutexes i).used = (k.mutexes i).used ∧
    (k'.mutexes i).name = (k.mutexes i).name
  semaphores : ∀ i, (k'.semaphores i).used = (k.semaphores i).used ∧
    (k'.semaphores i).name = (k.semaphores i).name
  strings : k'.strings = k.strings

namespace SameSlots

variable {k k' k'' : Kernel} {mutex : ℤ}

theorem refl (k : Kernel) : SameSlots k k := ⟨fun _ => ⟨rfl, rfl⟩, fun _ => ⟨rfl, rfl⟩, rfl⟩

theorem trans (h : SameSlots k k') (g : SameSlots k' k'') : SameSlots k k'' :=
  ⟨fun i => ⟨(g.mutexes i).1.trans (h.mutexes i).1, (g.mutexes i).2.trans (h.mutexes i).2⟩,
    fun i => ⟨(g.semaphores i).1.trans (h.semaphores i).1,
      (g.semaphores i).2.trans (h.semaphores i).2⟩, g.strings.trans h.strings⟩

theorem setMutex (k : Kernel) {m : Mutex} (hused : m.used = (k.mutexes mutex).used)
    (hname : m.name = (k.mutexes mutex).name) : SameSlots k (k.setMutex mutex m) := by
  refine ⟨fun i => ?_, fun _ => ⟨rfl, rfl⟩, rfl⟩
  by_cases hi : i = mutex
  · rw [hi, Kernel.setMutex_self]
    exact ⟨hused, hname⟩
  · rw [Kernel.setMutex_ne k m hi]
    exact ⟨rfl, rfl⟩

theorem setSemaphore (k : Kernel) {i : ℤ} {sem : Semaphore}
    (hused : sem.used = (k.semaphores i).used) (hname : sem.name = (k.semaphores i).name) :
    SameSlots k (k.setSemaphore i sem) := by
  refine ⟨fun _ => ⟨rfl, rfl⟩, fun j => ?_, rfl⟩
  by_cases hj : j = i
  · rw [hj, Kernel.setSemaphore_self]
    exact ⟨hused, hname⟩
  · rw [Kernel.setSemaphore_ne k sem hj]
    exact ⟨rfl, rfl⟩

theorem setState (k : Kernel) (pid : ℤ) (state : ProcessState) :
    SameSlots k (k.setState pid state) := ⟨fun _ => ⟨rfl, rfl⟩, fun _ => ⟨rfl, rfl⟩, rfl⟩

theorem yield (h : k.yield = some k') : SameSlots k k' := by
  obtain ⟨sched, -, rfl⟩ := Option.map_eq_some_iff.mp h
  exact ⟨fun _ => ⟨rfl, rfl⟩, fun _ => ⟨rfl, rfl⟩, rfl⟩

theorem lockMutex {garbage : ℤ} {returned : Bool}
    (h : Sync.lockMutex mutex garbage k = some (returned, k')) : SameSlots k k' := by
  have htest : SameSlots k (k.setMutex mutex (testAndSet (k.mutexes mutex)).2) := by
    refine setMutex k ?_ ?_ <;> unfold testAndSet <;> split_ifs <;> rfl
  unfold Sync.lockMutex at h
  dsimp only at h
  split_ifs at h with hneg hvalid hlock hfull
  · obtain ⟨-, rfl⟩ := Prod.mk.inj (Option.some.inj h)
    exact htest
  · obtain ⟨k₁, hyield, hpair⟩ := Option.map_eq_some_iff.mp h
    obtain ⟨-, rfl⟩ := Prod.mk.inj hpair
    exact (htest.trans (setState _ _ _)).trans (yield hyield)
  · obtain ⟨k₁, hyield, hpair⟩ := Option.map_eq_some_iff.mp h
    obtain ⟨-, rfl⟩ := Prod.mk.inj hpair
    have hadd : ∀ k : Kernel, SameSlots k (addToBlocked mutex k.pid k) := fun k => by
      unfold addToBlocked
      dsimp only
      split
      · exact refl k
      · exact setMutex k rfl rfl
    exact ((htest.trans (hadd _)).trans (setState _ _ _)).trans (yield hyield)
  · obtain ⟨-, rfl⟩ := Prod.mk.inj (Option.some.inj h)
    exact refl k

theorem freeMutex (h : Sync.freeMutex mutex k = some k') : SameSlots k k' := by
  have hunblock : SameSlots k (unblockProcess mutex k) := by
    unfold unblockProcess
    dsimp only
    split
    · exact refl k
    · next i pid _ => exact (setState k pid _).trans (setMutex _ rfl rfl)
  unfold Sync.freeMutex at h
  split_ifs at h with hneg hvalid hpos
  · obtain rfl := Option.some.inj h
    exact hunblock.trans (setMutex _ rfl rfl)
  · obtain rfl := Option.some.inj h
    exact setMutex k rfl rfl
  · exact Option.some.inj h ▸ refl k

end SameSlots

/-! ### Steps -/

section

variable {s t : State} {k : Kernel} {name : ℕ} {index start garbage pid : ℤ}

theorem Invariant.same (h : Invariant s) (hsame : SameSlots s.kernel k) :
    Invariant { s with kernel := k } :=
  ⟨h.mutexes.congr fun i => (hsame.mutexes i).1, h.semaphores.congr fun i => (hsame.semaphores i).1⟩

theorem MutexKept.same (h : MutexKept s name) (hsame : SameSlots s.kernel k) :
    MutexKept { s with kernel := k } name := by
  intro i hrange hi
  have hused : (s.kernel.mutexes i).used = true := by rwa [← (hsame.mutexes i).1]
  simp only [hsame.strings, (hsame.mutexes i).2]
  exact h i hrange hused

theorem SemaphoreKept.same (h : SemaphoreKept s name) (hsame : SameSlots s.kernel k) :
    SemaphoreKept { s with kernel := k } name := by
  intro i hrange hi
  have hused : (s.kernel.semaphores i).used = true := by rwa [← (hsame.semaphores i).1]
  simp only [hsame.strings, (hsame.semaphores i).2]
  exact h i hrange hused

theorem getSemIndex_same {k k' : Kernel} (h : SameSlots k k') (name : ℕ) :
    getSemIndex name k' = getSemIndex name k := by
  unfold getSemIndex
  congr 1
  funext i
  rw [h.strings, (h.semaphores i).1, (h.semaphores i).2]

theorem Invariant.getMutexRest (h : Invariant s) (hkept : MutexKept s name)
    (ht : s.getMutexRest name = some t) : Invariant t := by
  obtain ⟨⟨i, k⟩, hrun, rfl⟩ := Option.map_eq_some_iff.mp ht
  rcases getMutexRest_cases hrun with ⟨hindex, hfree⟩ | ⟨-, -, rfl, hfree⟩ | ⟨hindex, hspot, hfree⟩
  · -- the mutex is there
    obtain ⟨h0, hlt, hfound⟩ := firstIndex_spec hindex
    rw [decide_eq_true_iff, strcmp_eq_zero_iff] at hfound
    have hne : i ≠ error := by
      rintro rfl
      exact absurd h0 (by decide)
    have hname := (hkept.at_slot ⟨h0, hlt⟩ hfound.2).mp hfound.1
    have hsame := SameSlots.freeMutex hfree
    simp only [if_neg hne, hfound.2]
    exact ⟨(h.mutexes.found hname).congr fun j => (hsame.mutexes j).1,
      h.semaphores.congr fun j => (hsame.semaphores j).1⟩
  · simp only [if_true]
    exact h.same (SameSlots.freeMutex hfree)
  · -- the mutex is created
    obtain ⟨h0, hlt, hunused⟩ := firstIndex_spec hspot
    have hne : i ≠ error := by
      rintro rfl
      exact absurd h0 (by decide)
    have hunused : (s.kernel.mutexes i).used = false := by simpa using hunused
    have hnew := hkept.new h.mutexes fun j hj0 hjlt hused htext => by
      have hfound : (firstIndex maxMutexes fun i =>
          strcmp (s.kernel.strings (s.kernel.mutexes i).name) (s.kernel.strings name) = 0 ∧
            (s.kernel.mutexes i).used).isSome :=
        firstIndex_isSome.mpr ⟨j, hj0, hjlt, decide_eq_true
          ⟨(strcmp_eq_zero_iff _ _).mpr htext, hused⟩⟩
      rw [show (firstIndex maxMutexes fun i =>
          strcmp (s.kernel.strings (s.kernel.mutexes i).name) (s.kernel.strings name) = 0 ∧
            (s.kernel.mutexes i).used) = none from hindex] at hfound
      cases hfound
    have hsame := SameSlots.freeMutex hfree
    simp only [if_neg hne, hunused]
    refine ⟨h.mutexes.created ⟨h0, hlt⟩ hunused hnew fun j => ?_,
      h.semaphores.congr fun j => (hsame.semaphores j).1⟩
    refine ((hsame.mutexes j).1).trans ?_
    by_cases hj : j = i
    · rw [if_pos hj, hj, Kernel.setMutex_self]
    · rw [if_neg hj, Kernel.setMutex_ne _ _ hj]
      rfl

theorem Invariant.lockMutex {mutex : ℤ} {returned : Bool} (h : Invariant s)
    (ht : s.lockMutex mutex garbage = some (returned, t)) :
    Invariant t ∧ SameSlots s.kernel t.kernel ∧ t = { s with kernel := t.kernel } := by
  obtain ⟨⟨r, k⟩, hrun, he⟩ := Option.map_eq_some_iff.mp ht
  obtain ⟨rfl, rfl⟩ := Prod.mk.inj he
  have hsame := SameSlots.lockMutex hrun
  exact ⟨h.same hsame, hsame, rfl⟩

theorem Invariant.closeMutex (h : Invariant s) (ht : s.closeMutex index = some t) :
    Invariant t := by
  obtain ⟨k, hrun, rfl⟩ := Option.map_eq_some_iff.mp ht
  rcases closeMutex_cases hrun with rfl | ⟨hvalid, -, rfl⟩
  · simp only [and_not_self, if_false]
    exact h
  · have hused : (s.kernel.mutexes index).used = true := by
      unfold isValidMutex at hvalid
      split_ifs at hvalid
      exact hvalid
    rw [if_pos ⟨hused, by rw [Kernel.setMutex_self]; simp⟩]
    refine ⟨h.mutexes.close fun j => ?_, h.semaphores⟩
    by_cases hj : j = index
    · rw [if_pos hj, hj, mutexUsed, Kernel.setMutex_self]
    · rw [if_neg hj, mutexUsed, Kernel.setMutex_ne _ _ hj]
      rfl

theorem Invariant.semClose (h : Invariant s) (ht : s.semClose index = some t) : Invariant t := by
  obtain ⟨k, hrun, rfl⟩ := Option.map_eq_some_iff.mp ht
  rcases semClose_cases hrun with rfl | ⟨hvalid, -, rfl⟩
  · simp only [and_not_self, if_false]
    exact h
  · have hused : (s.kernel.semaphores index).used = true := by
      unfold isValidSemaphore at hvalid
      split_ifs at hvalid
      exact hvalid
    rw [if_pos ⟨hused, by rw [Kernel.setSemaphore_self]; simp⟩]
    refine ⟨h.mutexes, h.semaphores.close fun j => ?_⟩
    by_cases hj : j = index
    · rw [if_pos hj, hj, semaphoreUsed, Kernel.setSemaphore_self]
    · rw [if_neg hj, semaphoreUsed, Kernel.setSemaphore_ne _ _ hj]
      rfl

theorem Invariant.getMutex (h : Invariant s) (hkept : MutexKept s name)
    (ht : s.getMutex name garbage = some t) : Invariant t := by
  obtain ⟨⟨returned, u⟩, hlock, hrest⟩ := Option.bind_eq_some_iff.mp ht
  obtain ⟨hu, hsame, heq⟩ := h.lockMutex hlock
  have hkept' : MutexKept u name := heq ▸ hkept.same hsame
  cases returned with
  | false =>
    obtain rfl := Option.some.inj hrest
    exact hu
  | true => exact hu.getMutexRest hkept' hrest

theorem sameSlots_createSemaphoreEnd (index mutex start pid : ℤ) (k : Kernel) :
    SameSlots k (createSemaphoreEnd index mutex start pid k) :=
  SameSlots.setSemaphore k rfl rfl

theorem Invariant.createSemaphoreRest (h : Invariant s) (hkept : MutexKept s name)
    (ht : s.createSemaphoreRest index name start pid = some t) : Invariant t := by
  obtain ⟨u, hu, hrest⟩ := Option.bind_eq_some_iff.mp ht
  have hinv := h.getMutexRest hkept hu
  obtain ⟨k, hend, rfl⟩ := Option.map_eq_some_iff.mp hrest
  obtain ⟨r, hget, rfl⟩ := Option.map_eq_some_iff.mp hu
  obtain ⟨r', hget', hfree⟩ := Option.bind_eq_some_iff.mp hend
  obtain rfl : r' = r := Option.some.inj (hget'.symm.trans hget)
  exact hinv.same ((sameSlots_createSemaphoreEnd index r'.1 start pid r'.2).trans
    (SameSlots.freeMutex hfree))

theorem Invariant.semCreateRest (h : Invariant s) (hkept : SemaphoreKept s name)
    (hmutex : getSemIndex name s.kernel = none → MutexKept s name)
    (ht : s.semCreateRest name start garbage = some t) : Invariant t := by
  unfold State.semCreateRest at ht
  dsimp only at ht
  cases hindex : getSemIndex name s.kernel with
  | some i =>
    rw [hindex] at ht
    obtain rfl := Option.some.inj ht
    exact h
  | none =>
    rw [hindex] at ht
    dsimp only at ht
    cases hspot : getFreePositionSemaphores s.kernel with
    | none =>
      rw [hspot] at ht
      obtain ⟨k, hfree, rfl⟩ := Option.map_eq_some_iff.mp ht
      exact h.same (SameSlots.freeMutex hfree)
    | some index =>
      rw [hspot] at ht
      obtain ⟨h0, hlt, hunused⟩ := firstIndex_spec hspot
      have hunused : (s.kernel.semaphores index).used = false := by simpa using hunused
      have hnew := hkept.new h.semaphores fun j hj0 hjlt hused htext => by
        have hfound : (getSemIndex name s.kernel).isSome :=
          firstIndex_isSome.mpr ⟨j, hj0, hjlt, decide_eq_true
            ⟨(strcmp_eq_zero_iff _ _).mpr htext, hused⟩⟩
        rw [hindex] at hfound
        cases hfound
      have hcreated : Invariant { s with
          kernel := createSemaphoreStart index name s.kernel
          semaphores := s.semaphores.enter false (s.kernel.strings name) index } := by
        refine ⟨h.mutexes, h.semaphores.created ⟨h0, hlt⟩ hunused hnew fun j => ?_⟩
        by_cases hj : j = index
        · rw [if_pos hj, hj, semaphoreUsed, createSemaphoreStart, Kernel.setSemaphore_self]
        · rw [if_neg hj, semaphoreUsed, createSemaphoreStart, Kernel.setSemaphore_ne _ _ hj]
          rfl
      obtain ⟨⟨returned, u⟩, hlock, hrest⟩ := Option.bind_eq_some_iff.mp ht
      obtain ⟨hu, hsame, heq⟩ := hcreated.lockMutex hlock
      cases returned with
      | false =>
        obtain rfl := Option.some.inj hrest
        exact hu
      | true =>
        refine hu.createSemaphoreRest ?_ hrest
        rw [heq]
        exact MutexKept.same (s := { s with
          kernel := createSemaphoreStart index name s.kernel
          semaphores := s.semaphores.enter false (s.kernel.strings name) index })
          (hmutex hindex) hsame

theorem Invariant.semCreate (h : Invariant s) (hkept : SemaphoreKept s name)
    (hmutex : getSemIndex name s.kernel = none → MutexKept s name)
    (ht : s.semCreate name start garbage = some t) : Invariant t := by
  obtain ⟨⟨returned, u⟩, hlock, hrest⟩ := Option.bind_eq_some_iff.mp ht
  obtain ⟨hu, hsame, heq⟩ := h.lockMutex hlock
  have hkept' : SemaphoreKept u name := heq ▸ hkept.same hsame
  have hmutex' : getSemIndex name u.kernel = none → MutexKept u name := fun hnone =>
    heq ▸ (hmutex (by rw [← hnone, getSemIndex_same hsame])).same hsame
  cases returned with
  | false =>
    obtain rfl := Option.some.inj hrest
    exact hu
  | true => exact hu.semCreateRest hkept' hmutex' hrest

theorem Invariant.semOpen (h : Invariant s) (hkept : SemaphoreKept s name) :
    Invariant (s.semOpen name) := by
  unfold State.semOpen
  cases hindex : getSemIndex name s.kernel with
  | none => exact h
  | some i =>
    obtain ⟨h0, hlt, hfound⟩ := firstIndex_spec hindex
    rw [decide_eq_true_iff, strcmp_eq_zero_iff] at hfound
    exact ⟨h.mutexes, h.semaphores.found ((hkept.at_slot ⟨h0, hlt⟩ hfound.2).mp hfound.1)⟩

theorem Invariant.run (h : Invariant s) {c : Call} (hkept : c.Kept s) (ht : c.run s = some t) :
    Invariant t := by
  cases c with
  | getMutex name garbage => exact h.getMutex hkept ht
  | getMutexRest name => exact h.getMutexRest hkept ht
  | lockMutex mutex garbage =>
    obtain ⟨⟨returned, u⟩, hlock, rfl⟩ := Option.map_eq_some_iff.mp ht
    exact (h.lockMutex hlock).1
  | freeMutex mutex =>
    obtain ⟨k, hfree, rfl⟩ := Option.map_eq_some_iff.mp ht
    exact h.same (SameSlots.freeMutex hfree)
  | closeMutex index => exact h.closeMutex ht
  | semCreate name start garbage => exact h.semCreate hkept.1 hkept.2 ht
  | semCreateRest name start garbage => exact h.semCreateRest hkept.1 hkept.2 ht
  | createSemaphoreRest index name start pid => exact h.createSemaphoreRest hkept ht
  | semOpen name =>
    obtain rfl := Option.some.inj ht
    exact h.semOpen hkept
  | semClose index => exact h.semClose ht

theorem invariant_start (hs : IsStart s) : Invariant s := by
  obtain ⟨k₀, hkernel, hunused, hmutexes, hsemaphores⟩ := hs
  have hused : ∀ i, mutexUsed s.kernel i = decide (i = 0) := by
    intro i
    rw [mutexUsed, hkernel]
    simp only [initializeMutexes]
    split_ifs with hi <;> simp [hi, cleanMutex]
  constructor
  · rw [hmutexes]
    refine ⟨fun i hi => ?_, fun i => ?_, fun i j x hi hj => ?_, by simp⟩
    · rw [hused, decide_eq_true_iff] at hi
      rw [hi]
      decide
    · rw [hused]
      by_cases hi : i = 0 <;> simp [hi]
    · simp only [Option.ite_none_right_eq_some] at hi hj
      rw [hi.1, hj.1]
  · rw [hsemaphores]
    have hnone : ∀ i, semaphoreUsed s.kernel i = false := fun i => by
      rw [semaphoreUsed, hkernel]
      exact hunused i
    exact ⟨fun i hi => by simp [hnone] at hi, fun i => by simp [hnone], fun i j x hi => by
      simp at hi, by simp⟩

/-- As long as the buffers hold what the searches have to find, indexes and texts go together. -/
theorem identified_by_content
    (h : (nameSystem.restrict fun s a => a.call.Kept (s.elapse a)).Reachable s) :
    Identified s.mutexes.log ∧ Identified s.semaphores.log := by
  have hinv : Invariant s := by
    refine h.invariant (I := Invariant) (fun _ hs => invariant_start hs) ?_
    rintro s a t hinv ⟨hok, hstep⟩
    have helapsed : Invariant (s.elapse a) := ⟨hinv.mutexes, hinv.semaphores⟩
    exact helapsed.run hok hstep
  exact ⟨hinv.mutexes.identified, hinv.semaphores.identified⟩

end

/-- `semaphoreMutex` is the next mutex that is created. -/
def startState : State where
  kernel := initializeMutexes
    { zeroKernel (fun _ => ⟨null, ⟨0, .ready⟩⟩) (fun _ => []) with semaphoreMutex := 1 }
  mutexes := ⟨fun i => if i = 0 then some [] else none, []⟩
  semaphores := ⟨fun _ => none, []⟩

theorem isStart_startState : IsStart startState := ⟨_, rfl, fun _ => rfl, rfl, rfl⟩

/-- The memory with the text of the semaphores' mutex and two buffers. -/
def buffers (first second : List ℤ) : ℕ → List ℤ := fun a =>
  if a = 1 then [115] else if a = 2 then first else if a = 3 then second else []

def callWith (first second : List ℤ) (call : Call) : Action :=
  ⟨threeProcesses, buffers first second, call⟩

/-- Two buffers with the same text stand for one mutex and one semaphore. -/
theorem identified_by_content_shared : ∃ s : State, s.mutexes.log = [([97], 2), ([97], 2), ([115], 1)] ∧
    s.semaphores.log = [([97], 0), ([97], 0)] ∧ Identified s.mutexes.log ∧
    Identified s.semaphores.log := by
  obtain ⟨s, hs, hview⟩ := reachable_restrict_of_execute IsStart isStart_startState
    (show (execute (guarded (fun s a => a.call.Kept (s.elapse a)) step) startState
      [callWith [97] [97] (.getMutex 1 0), callWith [97] [97] (.semCreate 2 1 0),
        callWith [97] [97] (.semOpen 3), callWith [97] [97] (.getMutex 3 0)]).map
        (fun s => (s.mutexes.log, s.semaphores.log)) =
      some ([([97], 2), ([97], 2), ([115], 1)], [([97], 0), ([97], 0)]) by decide +kernel)
  simp only [Prod.mk.injEq] at hview
  exact ⟨s, hview.1, hview.2, identified_by_content hs⟩

/-- The first buffer is used for another name. The mutex and the semaphore of "a" are found under
"b", and "a" in the second buffer is another mutex. -/
theorem identified_by_address : ∃ s, nameSystem.Reachable s ∧
    s.mutexes.log = [([97], 3), ([98], 2), ([97], 2), ([115], 1)] ∧
    s.semaphores.log = [([98], 0), ([97], 0)] ∧ ¬ Identified s.mutexes.log ∧
    ¬ Identified s.semaphores.log := by
  obtain ⟨s, hpath, hview⟩ := exists_path_of_execute IsStart
    (show (execute step startState
      [callWith [97] [] (.getMutex 1 0), callWith [97] [] (.semCreate 2 1 0),
        callWith [98] [97] (.semOpen 2), callWith [98] [97] (.getMutex 2 0),
        callWith [98] [97] (.getMutex 3 0)]).map
        (fun s => (s.mutexes.log, s.semaphores.log)) =
      some ([([97], 3), ([98], 2), ([97], 2), ([115], 1)], [([98], 0), ([97], 0)]) by
      decide +kernel)
  simp only [Prod.mk.injEq] at hview
  obtain ⟨hmutexes, hsemaphores⟩ := hview
  refine ⟨s, hpath.reachable (System.Reachable.start isStart_startState), hmutexes, hsemaphores,
    ?_, ?_⟩
  · rw [hmutexes]
    unfold Identified
    decide
  · rw [hsemaphores]
    unfold Identified
    decide

end GatOS.NameBuffers
