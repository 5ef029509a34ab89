import GatOS.ObjectsInUse

/-!
# Starting the philosophers' semaphores

`startSemaphores` of `dummy.c`: a mutex and a semaphore for each philosopher. Between two system
calls other processes run. The output is left out, and `malloc` returns any block.
-/
namespace GatOS.StartSemaphores
open Sync Transition

/-- `ERROR` of `dummy.h`. -/
def error : ℤ := -1

/-- Of a number that is not negative; the argument `digits` is not used. -/
def intToString (n : ℕ) : List ℤ := [(n / 10 % 10 : ℕ) + 48, (n % 10 : ℕ) + 48]

/-- A result of type `int` that is returned as a `qword` and stored in an `int`. -/
def sysCallResult (r : ℤ) : ℤ := MachineInt.int32 (r % 2 ^ 64)

def mutexName : List ℤ := ['m', 'u', 't', 'e', 'x', 'p'].map fun c => (c.toNat : ℤ)

/-- A call of the function; `name` is the address of the text "mutexp". -/
structure Call where
  pid : ℤ
  name : ℕ
  cant : ℤ

inductive SystemCall
  | getMutex
  | semCreate (buffer : ℕ)
deriving DecidableEq

/-- The next statement; the two branches of the loop do the same. -/
inductive Place
  | call (c : SystemCall)
  | loop
  | returned (result : ℤ)
deriving DecidableEq

/-- `mutex` and `semaphores` are what the arguments point to. `failed` records that a system call
has returned `ERROR` of the kernel, `began` how many semaphores each slot had had at the start. -/
structure State where
  machine : Machine
  place : Place
  i : ℕ
  mutex : ℤ
  semaphores : ℕ → ℤ
  failed : Bool
  began : ℤ → ℕ

/-- `strings` is the memory behind `malloc` and `intToString`. -/
inductive Event
  | run (garbage : ℤ) (buffer : ℕ) (strings : ℕ → List ℤ)
  | other (action : Action)

/-- The call, or the rest of it when the process is suspended there. -/
def SystemCall.action (C : Call) (garbage : ℤ) (s : Machine) (c : SystemCall) : Action :=
  if s.idle then
    match c with
    | .getMutex => .getMutex C.name garbage
    | .semCreate buffer => .semCreate buffer 0 garbage
  else .resume garbage

namespace State

/-- What the function does with the result of a system call. -/
def afterCall (result : ℤ) (s : State) (c : SystemCall) : State :=
  let r := sysCallResult result
  let s := { s with failed := s.failed || result = Sync.error }
  match c with
  | .getMutex => { s with mutex := r, place := if r = error then .returned (-1) else .loop }
  | .semCreate _ =>
    let s := { s with semaphores := Function.update s.semaphores s.i r }
    if r = error then { s with place := .returned (-1) }
    else { s with place := .loop, i := s.i + 1 }

def call (C : Call) (garbage : ℤ) (s : State) (c : SystemCall) : Option State :=
  let a := c.action C garbage s.machine
  (Sync.step s.machine a).map fun m =>
    match s.machine.result a with
    | none => { s with machine := m }
    | some r => { s with machine := m }.afterCall r c

/-- The next statement of the process. -/
def run (C : Call) (garbage : ℤ) (buffer : ℕ) (strings : ℕ → List ℤ) (s : State) : Option State :=
  match s.place with
  | .call c => s.call C garbage c
  | .loop =>
    if s.i < C.cant then
      if strings buffer = intToString s.i then
        (Sync.step s.machine (.store strings)).map fun m =>
          { s with machine := m, place := .call (.semCreate buffer) }
      else none
    else some { s with place := .returned 0 }
  | .returned _ => none

/-- What happens between two statements, up to the end of the function. The clock interrupts every
process. -/
def permits (C : Call) (s : State) (a : Action) : Bool :=
  match s.place, a with
  | .returned _, _ => false
  | _, .tick => true
  | _, _ => s.machine.pid ≠ C.pid

/-- The objects that the function has got so far; a slot that it has reserved is one of them. -/
def has (C : Call) (s : State) : Element → Bool
  | .mutex i => s.place ≠ .call .getMutex ∧ s.mutex = i
  | .semaphore j =>
    (∃ k < s.i, s.semaphores k = j) ∨ (s.machine.pending C.pid).any (Pending.creates j)

/-- No call fails in this step, and none of the objects is closed by another process. -/
def succeeds (C : Call) (s : State) : Event → Bool
  | .run garbage _ _ =>
    match s.place with
    | .call c => (s.machine.carriesOut (c.action C garbage s.machine)).all fun r =>
        !r.1.refused s.machine.kernel
    | _ => true
  | .other action => (action.closed s.machine).all fun e => !s.has C e

end State

def step (C : Call) (s : State) : Event → Option State
  | .run garbage buffer strings =>
    if s.machine.pid = C.pid then s.run C garbage buffer strings else none
  | .other action =>
    if s.permits C action then
      (Sync.step s.machine action).map fun m => { s with machine := m }
    else none

/-- The tables are in any state that calls lead to. -/
structure IsStart (C : Call) (s : State) : Prop where
  machine : machineSystem.Reachable s.machine
  pid : s.machine.pid = C.pid
  pending : s.machine.pending C.pid = none
  name : s.machine.kernel.strings C.name = mutexName
  place : s.place = .call .getMutex
  i : s.i = 0
  failed : s.failed = false
  began : s.began = s.machine.ledger.generation

def system (C : Call) : System State Event := ofStep (IsStart C) (step C)

/-- The object can be used by its number. -/
def Valid (k : Kernel) : Element → Prop
  | .mutex i => 0 ≤ i ∧ isValidMutex i k = true
  | .semaphore j => 0 ≤ j ∧ isValidSemaphore j k = true

/-- What the caller can rely on after a result of 0. -/
structure AllCreated (C : Call) (s : State) : Prop where
  mutex : Valid s.machine.kernel (.mutex s.mutex)
  semaphores : ∀ k : ℕ, k < C.cant → Valid s.machine.kernel (.semaphore (s.semaphores k))
  new : ∀ k : ℕ, k < C.cant →
    s.began (s.semaphores k) < s.machine.ledger.generation (s.semaphores k)
  distinct : ∀ k l : ℕ, k < C.cant → l < C.cant → s.semaphores k = s.semaphores l → k = l

/-- 0 is returned only with all objects, and only -1 after a call that has failed. -/
structure Reports (C : Call) (s : State) : Prop where
  success : s.place = .returned 0 → AllCreated C s
  failure : s.failed = true → ∀ r, s.place = .returned r → r = -1

/-! ### The calls -/

/-- What the process can be suspended in. -/
def SystemCall.Suspends : SystemCall → Pending → Prop
  | .getMutex, .locking _ (.getMutex _) => True
  | .semCreate _, .locking _ (.semCreate _ _) => True
  | .semCreate _, .locking _ (.createSemaphore index _ _ _) => (Element.semaphore index).InTable
  | _, _ => False

/-- Process `p` is suspended in a call of `semCreate` that has reserved slot `j`. -/
def Reserved (s : Machine) (p j : ℤ) : Prop := (s.pending p).any (Pending.creates j) = true

/-- The running process takes slot `j`, which was not in use or which it had reserved. Unless the
reserved slot was closed, it is in use afterwards. -/
structure Takes (j : ℤ) (s t : Machine) : Prop where
  inTable : (Element.semaphore j).InTable
  fresh : (Element.semaphore j).used s.kernel = false ∨ Reserved s s.pid j
  used : (Reserved s s.pid j → (Element.semaphore j).used s.kernel = true) →
    (Element.semaphore j).used t.kernel = true

def SystemCall.Obtains (r : ℤ) (s t : Machine) : SystemCall → Prop
  | .getMutex => (Element.mutex r).InTable ∧ (Element.mutex r).used t.kernel = true
  | .semCreate _ => Takes r s t ∧ s.ledger.generation r < t.ledger.generation r

/-- A call that is carried out up to `t` is suspended, or it returns `ERROR` or an object. -/
def SystemCall.EndsIn (c : SystemCall) (result : Option ℤ) (refused : Bool) (s t : Machine) :
    Prop :=
  (result = none ∧ ∃ p, t.pending s.pid = some p ∧ c.Suspends p ∧
    ∀ j, p.creates j = true → Takes j s t) ∨
  ∃ r, result = some r ∧ t.pending s.pid = none ∧
    ((r = Sync.error ∧ refused = true) ∨ c.Obtains r s t)

section

variable {C : Call} {s t u : Machine} {c : SystemCall} {garbage m : ℤ} {rest : Rest}

theorem sysCallResult_eq {r : ℤ} (hlow : Sync.error ≤ r) (hhigh : r < maxMutexes) :
    sysCallResult r = r := by
  unfold sysCallResult MachineInt.int32 Sync.error maxMutexes at *
  have hmod : (r % 2 ^ 64).bmod (2 ^ 32) = r.bmod (2 ^ 32) := by
    rw [Int.bmod_def, Int.bmod_def]
    omega
  rw [hmod, Int.bmod_eq_of_le] <;> omega

/-- A number of a table crosses the boundary, and is neither of the error codes. -/
theorem sysCallResult_index {r : ℤ} (h0 : 0 ≤ r) (hlt : r < maxMutexes) :
    sysCallResult r = r ∧ r ≠ error ∧ r ≠ Sync.error := by
  have herror : Sync.error < r := lt_of_lt_of_le (by decide) h0
  have hminus : error < r := lt_of_lt_of_le (by decide) h0
  exact ⟨sysCallResult_eq herror.le hlt, hminus.ne', herror.ne'⟩

theorem not_reserved {p : ℤ} (h : s.pending p = none) (j : ℤ) : ¬ Reserved s p j := by
  simp [Reserved, h]

/-- The rest of the call behind `lockMutex`. -/
theorem proceed_endsIn (hbehind : Behind s u) (hsuspends : c.Suspends (.locking m rest))
    (hreserved : ∀ j, Pending.creates j (.locking m rest) = true → Reserved s s.pid j)
    (hrun : u.proceed garbage rest = some t) :
    c.EndsIn (rest.result u) (rest.refused s.kernel) s t := by
  have hnone : u.pending s.pid = none := by
    rw [← hbehind.pid]
    exact Machine.pending_of_idle hbehind.idle
  rw [← hbehind.refused]
  cases rest with
  | getMutex name =>
    cases c with
    | semCreate buffer => exact hsuspends.elim
    | getMutex =>
      obtain ⟨hpending, r, hresult, hcases⟩ := getMutexEnd_result hrun
      refine Or.inr ⟨r, hresult, by rw [hpending, hnone], ?_⟩
      rcases hcases with ⟨hrefused, rfl⟩ | hobtains
      · exact Or.inl ⟨rfl, hrefused⟩
      · exact Or.inr hobtains
  | semCreate name start =>
    cases c with
    | getMutex => exact hsuspends.elim
    | semCreate buffer =>
      rcases semCreateEnd_result hrun with ⟨hrefused, hresult, hpending⟩ |
        ⟨index, hin, hunused, hused, hcases⟩
      · exact Or.inr ⟨_, hresult, by rw [hpending, hnone], Or.inl ⟨rfl, hrefused⟩⟩
      · have htakes : Takes index s t :=
          ⟨hin, Or.inl ((hbehind.used _).symm.trans hunused), fun _ => hused⟩
        rcases hcases with ⟨hresult, hpending, hgeneration⟩ | ⟨hresult, i, hpending⟩
        · exact Or.inr ⟨index, hresult, by rw [hpending, hnone],
            Or.inr ⟨htakes, (hbehind.generation index).trans_lt hgeneration⟩⟩
        · rw [hbehind.pid] at hpending
          refine Or.inl ⟨hresult, .locking i (.createSemaphore index name start s.pid), hpending,
            hin, fun j hj => ?_⟩
          obtain rfl : index = j := of_decide_eq_true hj
          exact htakes
  | createSemaphore index name start pid =>
    cases c with
    | getMutex => exact hsuspends.elim
    | semCreate buffer =>
      obtain ⟨hpending, hgeneration⟩ := createSemaphoreEnd_result hrun
      have hreserved : Reserved s s.pid index := hreserved index (decide_eq_true rfl)
      refine Or.inr ⟨index, rfl, by rw [hpending, hnone], Or.inr ⟨⟨hsuspends, Or.inr hreserved,
        fun hused => ?_⟩, (hbehind.generation index).trans_lt hgeneration⟩⟩
      exact (createSemaphoreEnd_used hrun index).trans ((hbehind.used (.semaphore index)).trans
        (hused hreserved))
  | lockMutex => cases c <;> exact hsuspends.elim
  | wait j => cases c <;> exact hsuspends.elim

theorem carried_endsIn {a : Action} (hcarries : s.carriesOut a = some (rest, u))
    (hstep : Sync.step s a = some t) (hsuspends : c.Suspends (.locking m rest))
    (hreserved : ∀ j, Pending.creates j (.locking m rest) = true → Reserved s s.pid j) :
    c.EndsIn (s.result a) ((s.carriesOut a).any fun r => r.1.refused s.kernel) s t := by
  obtain ⟨hbehind, g, hrun⟩ := carriesOut_spec hcarries hstep
  rw [Machine.result, hcarries, Option.bind_some, Option.any_some]
  exact proceed_endsIn hbehind hsuspends hreserved hrun

theorem suspended_endsIn {a : Action} {p : Pending} (hcarries : s.carriesOut a = none)
    (hpending : t.pending s.pid = some p) (hsuspends : c.Suspends p)
    (hcreates : ∀ j, p.creates j = false) :
    c.EndsIn (s.result a) ((s.carriesOut a).any fun r => r.1.refused s.kernel) s t := by
  refine Or.inl ⟨by rw [Machine.result, hcarries, Option.bind_none], p, hpending, hsuspends,
    fun j hj => ?_⟩
  rw [hcreates j] at hj
  exact absurd hj (by simp)

/-- The call of the next statement, or the rest of the one that the process is suspended in. -/
theorem call_endsIn (hpid : s.pid = C.pid)
    (hsuspends : ∀ p, s.pending C.pid = some p → c.Suspends p) {a : Action}
    (ha : c.action C garbage s = a) (hstep : Sync.step s a = some t) :
    c.EndsIn (s.result a) ((s.carriesOut a).any fun r => r.1.refused s.kernel) s t := by
  rw [← hpid] at hsuspends
  by_cases hidle : s.idle = true
  · unfold SystemCall.action at ha
    rw [if_pos hidle] at ha
    cases c with
    | getMutex =>
      obtain rfl : Action.getMutex C.name garbage = a := ha
      cases hcarries : s.carriesOut (.getMutex C.name garbage) with
      | none =>
        obtain ⟨i, hpending⟩ := getMutex_suspended hcarries hstep
        rw [← hcarries]
        exact suspended_endsIn hcarries hpending trivial fun _ => rfl
      | some r =>
        obtain ⟨rest, u⟩ := r
        rw [← hcarries]
        rcases carriesOut_cases hcarries with ⟨name, g, ha, rfl, -⟩ | hgoes
        · refine carried_endsIn (m := 0) hcarries hstep trivial fun j hj => ?_
          simp [Pending.creates] at hj
        · simp [Machine.goesOn] at hgoes
    | semCreate buffer =>
      obtain rfl : Action.semCreate buffer 0 garbage = a := ha
      cases hcarries : s.carriesOut (.semCreate buffer 0 garbage) with
      | none =>
        obtain ⟨i, hpending⟩ := semCreate_suspended hcarries hstep
        rw [← hcarries]
        exact suspended_endsIn hcarries hpending trivial fun _ => rfl
      | some r =>
        obtain ⟨rest, u⟩ := r
        rw [← hcarries]
        have hgoes : s.goesOn (.semCreate buffer 0 garbage) = some (rest, u) := hcarries
        rcases goesOn_cases hgoes with ⟨name, start, g, ha, rfl, -⟩ | ⟨g, i, ha, -⟩
        · refine carried_endsIn (m := 0) hcarries hstep trivial fun j hj => ?_
          simp [Pending.creates] at hj
        · exact absurd ha (by simp)
  · unfold SystemCall.action at ha
    rw [if_neg hidle] at ha
    subst ha
    obtain ⟨p, hpending⟩ : ∃ p, s.pending s.pid = some p :=
      Option.ne_none_iff_exists'.mp (by simpa [Machine.idle] using hidle)
    have hrest := hsuspends p hpending
    cases p with
    | sleeping j g => cases c <;> exact hrest.elim
    | locking i rest =>
      have hcarries : s.carriesOut (.resume garbage) = some (rest, s.wake) := by
        simp [Machine.carriesOut, Machine.goesOn, hpending]
      refine carried_endsIn hcarries hstep hrest fun j hj => ?_
      rw [Reserved, hpending]
      exact hj

theorem action_closed (C : Call) (garbage : ℤ) (s : Machine) (c : SystemCall) :
    (c.action C garbage s).closed s = none := by
  unfold SystemCall.action
  split_ifs
  · cases c <;> rfl
  · rfl

end

/-! ### Every run -/

/-- The process is suspended in no other call than the one of its place, and the result is 0. -/
structure Ongoing (C : Call) (s : State) : Prop where
  suspends : ∀ p, s.machine.pending C.pid = some p → ∃ c, s.place = .call c ∧ c.Suspends p
  returned : ∀ r, s.place = .returned r → r = 0

section

variable {C : Call} {s t : State} {c : SystemCall} {garbage : ℤ}

/-- A result that is not `ERROR` of the kernel is the number of an object. -/
theorem SystemCall.Obtains.range {r : ℤ} {u v : Machine} (h : c.Obtains r u v) :
    0 ≤ r ∧ r < maxMutexes := by
  cases c with
  | getMutex => exact h.1
  | semCreate buffer =>
    obtain ⟨h0, hlt⟩ := h.1.inTable
    exact ⟨h0, hlt.trans (by decide)⟩

/-- `ERROR` of the kernel is another value than the one that the function looks for. -/
theorem SystemCall.EndsIn.result_ne {r : ℤ} {refused : Bool} {u v : Machine}
    (h : c.EndsIn (some r) refused u v) : sysCallResult r ≠ error := by
  rcases h with ⟨hnone, -⟩ | ⟨r', hr, -, ⟨rfl, -⟩ | hobtains⟩
  · exact absurd hnone (by simp)
  · obtain rfl := Option.some.inj hr
    decide
  · obtain rfl := Option.some.inj hr
    obtain ⟨h0, hlt⟩ := hobtains.range
    obtain ⟨heq, hne, -⟩ := sysCallResult_index h0 hlt
    rw [heq]
    exact hne

theorem afterCall_getMutex {r : ℤ} (hne : sysCallResult r ≠ error) (s : State) :
    s.afterCall r .getMutex = { s with
      failed := s.failed || r = Sync.error, mutex := sysCallResult r, place := .loop } := by
  simp [State.afterCall, hne]

theorem afterCall_semCreate {r : ℤ} (hne : sysCallResult r ≠ error) (s : State) (buffer : ℕ) :
    s.afterCall r (.semCreate buffer) = { s with
      failed := s.failed || r = Sync.error
      semaphores := Function.update s.semaphores s.i (sysCallResult r)
      place := .loop
      i := s.i + 1 } := by
  simp [State.afterCall, hne]

/-- After a call the function goes on, whatever the call has returned. -/
theorem afterCall_place {r : ℤ} (hne : sysCallResult r ≠ error) (s : State) (c : SystemCall) :
    (s.afterCall r c).place = .loop := by
  cases c with
  | getMutex => rw [afterCall_getMutex hne]
  | semCreate buffer => rw [afterCall_semCreate hne]

theorem afterCall_machine (r : ℤ) (s : State) (c : SystemCall) :
    (s.afterCall r c).machine = s.machine := by
  unfold State.afterCall
  cases c with
  | getMutex => rfl
  | semCreate buffer =>
    dsimp only
    split_ifs <;> rfl

theorem step_cases {e : Event} (hstep : step C s e = some t) :
    (∃ garbage buffer strings c m, e = .run garbage buffer strings ∧ s.machine.pid = C.pid ∧
      s.place = .call c ∧ Sync.step s.machine (c.action C garbage s.machine) = some m ∧
        ((s.machine.result (c.action C garbage s.machine) = none ∧ t = { s with machine := m }) ∨
          ∃ r, s.machine.result (c.action C garbage s.machine) = some r ∧
            t = { s with machine := m }.afterCall r c)) ∨
    (∃ buffer strings m, s.place = .loop ∧ Sync.step s.machine (.store strings) = some m ∧
      t = { s with machine := m, place := .call (.semCreate buffer) }) ∨
    (s.place = .loop ∧ C.cant ≤ s.i ∧ t = { s with place := .returned 0 }) ∨
    ∃ a m, e = .other a ∧ (a = .tick ∨ s.machine.pid ≠ C.pid) ∧ Sync.step s.machine a = some m ∧
      t = { s with machine := m } := by
  cases e with
  | other a =>
    simp only [step] at hstep
    split_ifs at hstep with hpermits
    obtain ⟨m, hm, rfl⟩ := Option.map_eq_some_iff.mp hstep
    refine Or.inr (Or.inr (Or.inr ⟨a, m, rfl, ?_, hm, rfl⟩))
    unfold State.permits at hpermits
    split at hpermits
    · simp at hpermits
    · exact Or.inl rfl
    · exact Or.inr (of_decide_eq_true hpermits)
  | run garbage buffer strings =>
    simp only [step] at hstep
    split_ifs at hstep with hpid
    cases hplace : s.place with
    | returned r => simp [State.run, hplace] at hstep
    | call c =>
      simp only [State.run, hplace, State.call] at hstep
      obtain ⟨m, hm, rfl⟩ := Option.map_eq_some_iff.mp hstep
      refine Or.inl ⟨garbage, buffer, strings, c, m, rfl, hpid, rfl, hm, ?_⟩
      cases s.machine.result (c.action C garbage s.machine) with
      | none => exact Or.inl ⟨rfl, rfl⟩
      | some r => exact Or.inr ⟨r, rfl, rfl⟩
    | loop =>
      right
      simp only [State.run, hplace] at hstep
      split_ifs at hstep with hlt htext
      · obtain ⟨m, hm, rfl⟩ := Option.map_eq_some_iff.mp hstep
        exact Or.inl ⟨buffer, strings, m, rfl, hm, rfl⟩
      · exact Or.inr (Or.inl ⟨rfl, not_lt.mp hlt, (Option.some.inj hstep).symm⟩)

/-- The other processes do not change what the process is suspended in. -/
theorem other_pending {m : Machine} {a : Action} (ha : a = .tick ∨ s.machine.pid ≠ C.pid)
    (hstep : Sync.step s.machine a = some m) : m.pending C.pid = s.machine.pending C.pid := by
  rcases ha with rfl | hpid
  · rw [tick_pending hstep]
  · exact step_pending hstep hpid.symm

theorem Ongoing.pending_none (h : Ongoing C s) (hplace : ∀ c, s.place ≠ .call c) :
    s.machine.pending C.pid = none := by
  refine Option.eq_none_iff_forall_ne_some.mpr fun p hp => ?_
  obtain ⟨c, hc, -⟩ := h.suspends p hp
  exact hplace c hc

theorem Ongoing.endsIn (h : Ongoing C s) {m : Machine} (hpid : s.machine.pid = C.pid)
    (hplace : s.place = .call c)
    (hstep : Sync.step s.machine (c.action C garbage s.machine) = some m) :
    c.EndsIn (s.machine.result (c.action C garbage s.machine))
      ((s.machine.carriesOut (c.action C garbage s.machine)).any fun r =>
        r.1.refused s.machine.kernel) s.machine m := by
  refine call_endsIn hpid (fun p hp => ?_) rfl hstep
  obtain ⟨c', hc, hsuspends⟩ := h.suspends p hp
  obtain rfl := Place.call.inj (hplace.symm.trans hc)
  exact hsuspends

theorem Ongoing.step {e : Event} (h : Ongoing C s) (hstep : step C s e = some t) :
    Ongoing C t := by
  rcases step_cases hstep with ⟨garbage, -, -, c, m, -, hpid, hplace, hm, hcases⟩ |
    ⟨buffer, strings, m, hplace, hm, rfl⟩ | ⟨hplace, -, rfl⟩ | ⟨a, m, -, ha, hm, rfl⟩
  · have hends := h.endsIn hpid hplace hm
    rcases hcases with ⟨hresult, rfl⟩ | ⟨r, hresult, rfl⟩
    · rw [hresult] at hends
      rcases hends with ⟨-, p, hp, hsuspends, -⟩ | ⟨r, hr, -⟩
      · refine ⟨fun q hq => ⟨c, hplace, ?_⟩, h.returned⟩
        rw [← hpid, hp] at hq
        exact Option.some.inj hq ▸ hsuspends
      · exact absurd hr (by simp)
    · rw [hresult] at hends
      have hloop := afterCall_place hends.result_ne { s with machine := m } c
      rcases hends with ⟨hnone, -⟩ | ⟨r', -, hpending, -⟩
      · exact absurd hnone (by simp)
      · constructor
        · intro p hp
          rw [afterCall_machine, ← hpid, hpending] at hp
          exact absurd hp (by simp)
        · intro r hr
          rw [hloop] at hr
          exact absurd hr (by simp)
  · have hnone := h.pending_none (by simp [hplace])
    refine ⟨fun p hp => ?_, fun r hr => absurd hr (by simp)⟩
    rw [show m.pending = s.machine.pending from store_pending hm, hnone] at hp
    exact absurd hp (by simp)
  · have hnone := h.pending_none (by simp [hplace])
    refine ⟨fun p hp => ?_, fun r hr => (Place.returned.inj hr).symm⟩
    exact absurd (hnone.symm.trans hp) (by simp)
  · refine ⟨fun p hp => h.suspends p ?_, h.returned⟩
    rw [← other_pending ha hm]
    exact hp

theorem reachable_ongoing (h : (system C).Reachable s) : Ongoing C s := by
  refine h.invariant (fun s hs => ?_) fun s e t hs hstep => hs.step hstep
  have hs : IsStart C s := hs
  refine ⟨fun p hp => ?_, fun r hr => ?_⟩
  · rw [hs.pending] at hp
    exact absurd hp (by simp)
  · rw [hs.place] at hr
    exact absurd hr (by simp)

/-- A run of the function is a run of the machine. -/
theorem reachable_machine (h : (system C).Reachable s) : machineSystem.Reachable s.machine := by
  induction h with
  | start hs => exact IsStart.machine hs
  | next _ hstep ih =>
    rcases step_cases hstep with ⟨_, _, _, c, m, -, -, -, hm, ⟨-, rfl⟩ | ⟨r, -, rfl⟩⟩ |
      ⟨_, strings, m, -, hm, rfl⟩ | ⟨-, -, rfl⟩ | ⟨a, m, -, -, hm, rfl⟩
    · exact ih.next hm
    · rw [afterCall_machine]
      exact ih.next hm
    · exact ih.next hm
    · exact ih
    · exact ih.next hm

/-- A call that fails is never reported: the function has no other result than 0. -/
theorem failure_unreported (h : (system C).Reachable s) (hfailed : s.failed = true) {r : ℤ}
    (hplace : s.place = .returned r) : ¬ Reports C s := by
  intro hreports
  have hone := hreports.failure hfailed r hplace
  rw [(reachable_ongoing h).returned r hplace] at hone
  exact absurd hone (by decide)

end

/-! ### Runs without a failure -/

/-- No call has failed, and the objects that the function has got are in use and differ. -/
structure Holds (C : Call) (s : State) : Prop where
  failed : s.failed = false
  mutex : s.place ≠ .call .getMutex →
    (Element.mutex s.mutex).InTable ∧ (Element.mutex s.mutex).used s.machine.kernel = true
  semaphores : ∀ k < s.i, (Element.semaphore (s.semaphores k)).InTable ∧
    (Element.semaphore (s.semaphores k)).used s.machine.kernel = true
  new : ∀ k < s.i, s.began (s.semaphores k) < s.machine.ledger.generation (s.semaphores k)
  distinct : ∀ k < s.i, ∀ l < s.i, s.semaphores k = s.semaphores l → k = l
  began : ∀ j, s.began j ≤ s.machine.ledger.generation j
  reserved : ∀ j, Reserved s.machine C.pid j →
    (Element.semaphore j).used s.machine.kernel = true ∧ ∀ k < s.i, s.semaphores k ≠ j
  done : ∀ r, s.place = .returned r → C.cant ≤ s.i

section

variable {C : Call} {s t : State} {c : SystemCall} {garbage : ℤ} {m : Machine} {a : Action}

/-- The values so far, and a new one behind them. -/
theorem update_cases {n k : ℕ} (f : ℕ → ℤ) (v : ℤ) (hk : k < n + 1) :
    (k = n ∧ Function.update f n v k = v) ∨ (k < n ∧ Function.update f n v k = f k) := by
  rcases (Nat.lt_succ_iff.mp hk).eq_or_lt with rfl | hlt
  · exact Or.inl ⟨rfl, Function.update_self _ _ _⟩
  · exact Or.inr ⟨hlt, Function.update_of_ne hlt.ne _ _⟩

theorem forall_update {P : ℤ → Prop} {n : ℕ} {f : ℕ → ℤ} {v : ℤ} (hv : P v)
    (hf : ∀ k < n, P (f k)) : ∀ k < n + 1, P (Function.update f n v k) := by
  intro k hk
  rcases update_cases f v hk with ⟨-, heq⟩ | ⟨hlt, heq⟩
  · rw [heq]
    exact hv
  · rw [heq]
    exact hf k hlt

/-- What the step of a machine keeps, as long as it closes none of the objects. -/
theorem Holds.next (h : Holds C s) (hclosed : ∀ e, s.has C e = true → a.closed s.machine ≠ some e)
    (hstep : Sync.step s.machine a = some m)
    (hreserved : ∀ j, Reserved m C.pid j →
      (Element.semaphore j).used m.kernel = true ∧ ∀ k < s.i, s.semaphores k ≠ j) :
    Holds C { s with machine := m } := by
  have hgeneration := step_generation hstep
  refine ⟨h.failed, fun hplace => ?_, fun k hk => ?_, fun k hk => ?_, h.distinct, fun j => ?_,
    hreserved, h.done⟩
  · obtain ⟨hin, hused⟩ := h.mutex hplace
    exact ⟨hin, step_used (hclosed _ (decide_eq_true ⟨hplace, rfl⟩)) hused hstep⟩
  · obtain ⟨hin, hused⟩ := h.semaphores k hk
    have hhas : s.has C (.semaphore (s.semaphores k)) = true := decide_eq_true (Or.inl ⟨k, hk, rfl⟩)
    exact ⟨hin, step_used (hclosed _ hhas) hused hstep⟩
  · exact (h.new k hk).trans_le (hgeneration _)
  · exact (h.began j).trans (hgeneration j)

/-- A slot that the process takes is none of those that it has. -/
theorem Holds.takes (h : Holds C s) (hpid : s.machine.pid = C.pid) {j : ℤ}
    (htakes : Takes j s.machine m) :
    (Element.semaphore j).used m.kernel = true ∧ ∀ k < s.i, s.semaphores k ≠ j := by
  refine ⟨htakes.used fun hj => (h.reserved j (hpid ▸ hj)).1, fun k hk hkj => ?_⟩
  rcases htakes.fresh with hunused | hj
  · have hused := (h.semaphores k hk).2
    rw [hkj, hunused] at hused
    exact absurd hused (by simp)
  · exact (h.reserved j (hpid ▸ hj)).2 k hk hkj

theorem Holds.gotMutex (h : Holds C s) {r : ℤ} (hin : (Element.mutex r).InTable)
    (hused : (Element.mutex r).used s.machine.kernel = true)
    (hreserved : ∀ j, ¬ Reserved s.machine C.pid j) : Holds C (s.afterCall r .getMutex) := by
  obtain ⟨hr, hne, hfailed⟩ := sysCallResult_index hin.1 hin.2
  rw [afterCall_getMutex (by rwa [hr]), hr]
  refine ⟨?_, fun _ => ⟨hin, hused⟩, h.semaphores, h.new, h.distinct, h.began,
    fun j hj => absurd hj (hreserved j), fun r hr => absurd hr (by simp)⟩
  simp [h.failed, hfailed]

theorem Holds.created (h : Holds C s) {r : ℤ} (hplace : s.place = .call c)
    (hc : c ≠ .getMutex) (hin : (Element.semaphore r).InTable)
    (hused : (Element.semaphore r).used s.machine.kernel = true)
    (hnew : s.began r < s.machine.ledger.generation r) (hother : ∀ k < s.i, s.semaphores k ≠ r)
    (hreserved : ∀ j, ¬ Reserved s.machine C.pid j) : Holds C (s.afterCall r c) := by
  cases c with
  | getMutex => exact absurd rfl hc
  | semCreate buffer =>
    obtain ⟨hr, hne, hfailed⟩ := sysCallResult_index hin.1 (hin.2.trans (by decide))
    rw [afterCall_semCreate (by rwa [hr]), hr]
    refine ⟨?_, fun _ => h.mutex (by simp [hplace]), ?_, ?_, fun k hk l hl hkl => ?_, h.began,
      fun j hj => absurd hj (hreserved j), fun r hr => absurd hr (by simp)⟩
    · simp [h.failed, hfailed]
    · exact forall_update (P := fun j => (Element.semaphore j).InTable ∧
        (Element.semaphore j).used s.machine.kernel = true) ⟨hin, hused⟩ h.semaphores
    · exact forall_update (P := fun j => s.began j < s.machine.ledger.generation j) hnew h.new
    · dsimp only at hkl
      rcases update_cases s.semaphores r hk with ⟨rfl, hk⟩ | ⟨hklt, hk⟩
      · rcases update_cases s.semaphores r hl with ⟨rfl, -⟩ | ⟨hllt, hl⟩
        · rfl
        · rw [hk, hl] at hkl
          exact absurd hkl.symm (hother l hllt)
      · rcases update_cases s.semaphores r hl with ⟨rfl, hl⟩ | ⟨hllt, hl⟩
        · rw [hk, hl] at hkl
          exact absurd hkl (hother k hklt)
        · rw [hk, hl] at hkl
          exact h.distinct k hklt l hllt hkl

theorem Holds.step {e : Event} (h : Holds C s) (hongoing : Ongoing C s)
    (hsucceeds : s.succeeds C e = true) (hstep : step C s e = some t) : Holds C t := by
  rcases step_cases hstep with ⟨garbage, buffer, strings, c, m, rfl, hpid, hplace, hm, hcases⟩ |
    ⟨buffer, strings, m, hplace, hm, rfl⟩ | ⟨hplace, hdone, rfl⟩ | ⟨a, m, rfl, ha, hm, rfl⟩
  · have hends := hongoing.endsIn hpid hplace hm
    have hclosed : ∀ e, s.has C e = true →
        (c.action C garbage s.machine).closed s.machine ≠ some e := fun e _ => by
      rw [action_closed]
      simp
    rcases hcases with ⟨hresult, rfl⟩ | ⟨r, hresult, rfl⟩
    · rw [hresult] at hends
      rcases hends with ⟨-, p, hp, -, htakes⟩ | ⟨r, hr, -⟩
      · refine h.next hclosed hm fun j hj => h.takes hpid (htakes j ?_)
        rw [Reserved, ← hpid, hp] at hj
        exact hj
      · exact absurd hr (by simp)
    · rw [hresult] at hends
      rcases hends with ⟨hnone, -⟩ | ⟨r', hr, hpending, hresult⟩
      · exact absurd hnone (by simp)
      · obtain rfl := Option.some.inj hr
        rw [hpid] at hpending
        have hreserved := not_reserved hpending
        have hnext := h.next hclosed hm fun j hj => absurd hj (hreserved j)
        rcases hresult with ⟨-, hrefused⟩ | hobtains
        · -- the call does not fail
          simp only [State.succeeds, hplace] at hsucceeds
          obtain ⟨x, hx, hrefused⟩ := (Option.any_eq_true _ _).mp hrefused
          rw [hx, Option.all_some, hrefused] at hsucceeds
          exact absurd hsucceeds (by simp)
        · cases c with
          | getMutex => exact hnext.gotMutex hobtains.1 hobtains.2 hreserved
          | semCreate buffer =>
            obtain ⟨htakes, hgeneration⟩ := hobtains
            obtain ⟨hused, hother⟩ := h.takes hpid htakes
            exact hnext.created hplace (by simp) htakes.inTable hused
              ((h.began r).trans_lt hgeneration) hother hreserved
  · have hnone := hongoing.pending_none (by simp [hplace])
    rw [← store_pending hm] at hnone
    have hreserved := not_reserved hnone
    have hnext := h.next (a := .store strings) (fun e _ => by simp [Action.closed]) hm
      fun j hj => absurd hj (hreserved j)
    exact ⟨hnext.failed, fun _ => hnext.mutex (by simp [hplace]), hnext.semaphores, hnext.new,
      hnext.distinct, hnext.began, hnext.reserved, fun r hr => absurd hr (by simp)⟩
  · exact ⟨h.failed, fun _ => h.mutex (by simp [hplace]), h.semaphores, h.new, h.distinct, h.began,
      h.reserved, fun _ _ => hdone⟩
  · have hpending := other_pending ha hm
    have hclosed : ∀ e, s.has C e = true → a.closed s.machine ≠ some e := fun e he hcloses => by
      simp only [State.succeeds] at hsucceeds
      rw [hcloses, Option.all_some, he] at hsucceeds
      exact absurd hsucceeds (by simp)
    refine h.next hclosed hm fun j hj => ?_
    have hj : Reserved s.machine C.pid j := by
      rw [Reserved, ← hpending]
      exact hj
    obtain ⟨hused, hother⟩ := h.reserved j hj
    exact ⟨step_used (hclosed _ (decide_eq_true (Or.inr hj))) hused hm, hother⟩

theorem IsStart.holds (hs : IsStart C s) : Holds C s := by
  have hnone : ∀ k, ¬ k < s.i := by
    rw [hs.i]
    exact Nat.not_lt_zero
  exact ⟨hs.failed, fun hplace => absurd hs.place hplace, fun k hk => absurd hk (hnone k),
    fun k hk => absurd hk (hnone k), fun k hk => absurd hk (hnone k), fun j => by rw [hs.began],
    fun j hj => absurd hj (not_reserved hs.pending j), fun r hr => by simp [hs.place] at hr⟩

theorem reachable_holds {s : State}
    (h : ((system C).restrict fun s e => s.succeeds C e = true).Reachable s) : Holds C s := by
  induction h with
  | start hs => exact IsStart.holds hs
  | next hreach hstep ih =>
    exact ih.step (reachable_ongoing hreach.of_restrict) hstep.1 hstep.2

end

/-- When no call fails and nobody closes the objects, 0 is returned only with the mutex and all
semaphores, and no failure is left unreported. -/
theorem startSemaphores_reports {C : Call} {s : State}
    (h : ((system C).restrict fun s e => s.succeeds C e = true).Reachable s) : Reports C s := by
  have hs := reachable_holds h
  refine ⟨fun hplace => ?_, fun hfailed => ?_⟩
  · have hdone := hs.done 0 hplace
    have hlt : ∀ k : ℕ, k < C.cant → k < s.i := fun k hk => by omega
    obtain ⟨hin, hused⟩ := hs.mutex (by simp [hplace])
    refine ⟨⟨hin.1, (isValidMutex_iff hin.1).mpr ⟨hin, hused⟩⟩, fun k hk => ?_,
      fun k hk => hs.new k (hlt k hk), fun k l hk hl => hs.distinct k (hlt k hk) l (hlt l hl)⟩
    obtain ⟨hin, hused⟩ := hs.semaphores k (hlt k hk)
    exact ⟨hin.1, (isValidSemaphore_iff hin.1).mpr ⟨hin, hused⟩⟩
  · rw [hs.failed] at hfailed
    exact absurd hfailed (by simp)

/-! ### Concrete runs -/

/-- At address 2 there is the name of the mutex, at the addresses behind it those of semaphores. -/
def names (address : ℕ) : List ℤ :=
  if address = 2 then mutexName else if address < 2 then texts address
  else intToString (address - 3)

/-- Process 2 calls the function. -/
def startOf (m : Machine) : State :=
  ⟨m, .call .getMutex, 0, 0, fun _ => 0, false, m.ledger.generation⟩

theorem isStart_startOf {m : Machine} {cant : ℤ} (h : machineSystem.Reachable m) (hpid : m.pid = 2)
    (hidle : m.idle = true) (hname : m.kernel.strings 2 = mutexName) :
    IsStart ⟨2, 2, cant⟩ (startOf m) := by
  refine ⟨h, hpid, ?_, hname, rfl, rfl, rfl, rfl⟩
  have hnone := Machine.pending_of_idle hidle
  rwa [hpid] at hnone

/-- Process 2 starts two semaphores. After the first, process 1 creates one of its own. -/
theorem startSemaphores_reports_two : ∃ s, ((system ⟨2, 2, 2⟩).restrict fun s e =>
    s.succeeds ⟨2, 2, 2⟩ e = true).Reachable s ∧ s.place = .returned 0 ∧ Reports ⟨2, 2, 2⟩ s := by
  have hrun : (execute Sync.step bootedMachine
      (createProcesses 1 ++ [.store names, .tick])).any (fun m =>
      (execute (guarded (fun s e => s.succeeds ⟨2, 2, 2⟩ e = true) (step ⟨2, 2, 2⟩)) (startOf m)
        [.run 0 0 names, .run 0 3 names, .run 0 0 names, .other .tick, .other (.semCreate 1 0 0),
          .other .tick, .other .tick, .run 0 4 names, .run 0 0 names, .run 0 0 names]).any fun s =>
            m.pid = 2 ∧ m.idle = true ∧ m.kernel.strings 2 = mutexName ∧
              s.place = .returned 0) = true := by
    decide +kernel
  obtain ⟨m, hm, hrun⟩ := (Option.any_eq_true _ _).mp hrun
  obtain ⟨s, hs, hrun⟩ := (Option.any_eq_true _ _).mp hrun
  obtain ⟨hpid, hidle, hname, hplace⟩ := of_decide_eq_true hrun
  have hstart : IsStart ⟨2, 2, 2⟩ (startOf m) :=
    isStart_startOf (reachable_of_execute IsBoot isBoot_bootedMachine hm) hpid hidle hname
  have hreach := (path_restrict_of_execute (IsStart ⟨2, 2, 2⟩) hs).reachable (.start hstart)
  exact ⟨s, hreach, hplace, startSemaphores_reports hreach⟩

/-- Process 1 has a semaphore with the name "00". `semCreate` returns the number -4 to process 2,
and the function returns 0. -/
theorem name_in_use : ∃ s, (system ⟨2, 2, 1⟩).Reachable s ∧ s.place = .returned 0 ∧
    s.failed = true ∧ s.semaphores 0 = -4 ∧ ¬ Reports ⟨2, 2, 1⟩ s := by
  have hrun : (execute Sync.step bootedMachine (createProcesses 1 ++
      [.store names, .tick, .tick, .semCreate 3 0 0, .tick, .tick])).any (fun m =>
      (execute (step ⟨2, 2, 1⟩) (startOf m)
        [.run 0 0 names, .run 0 3 names, .run 0 0 names, .run 0 0 names]).any fun s =>
          m.pid = 2 ∧ m.idle = true ∧ m.kernel.strings 2 = mutexName ∧ s.place = .returned 0 ∧
            s.failed = true ∧ s.semaphores 0 = -4) = true := by
    decide +kernel
  obtain ⟨m, hm, hrun⟩ := (Option.any_eq_true _ _).mp hrun
  obtain ⟨s, hs, hrun⟩ := (Option.any_eq_true _ _).mp hrun
  obtain ⟨hpid, hidle, hname, hplace, hfailed, hresult⟩ := of_decide_eq_true hrun
  have hstart : IsStart ⟨2, 2, 1⟩ (startOf m) :=
    isStart_startOf (reachable_of_execute IsBoot isBoot_bootedMachine hm) hpid hidle hname
  have hreach := reachable_of_execute (IsStart ⟨2, 2, 1⟩) hstart hs
  refine ⟨s, hreach, hplace, hfailed, hresult, fun hreports => ?_⟩
  have hminus := hreports.failure hfailed 0 hplace
  exact absurd hminus (by decide)

/-- Process 1 has created the mutex and closes it before the function returns. No call fails. -/
theorem mutex_closed : ∃ s, (system ⟨2, 2, 0⟩).Reachable s ∧ s.place = .returned 0 ∧
    s.failed = false ∧ ¬ Reports ⟨2, 2, 0⟩ s := by
  have hrun : (execute Sync.step bootedMachine (createProcesses 1 ++
      [.store names, .tick, .tick, .getMutex 2 0, .tick, .tick])).any (fun m =>
      (execute (step ⟨2, 2, 0⟩) (startOf m)
        [.run 0 0 names, .other .tick, .other (.closeMutex 2), .other .tick, .other .tick,
          .run 0 0 names]).any fun s =>
          m.pid = 2 ∧ m.idle = true ∧ m.kernel.strings 2 = mutexName ∧ s.place = .returned 0 ∧
            s.failed = false ∧ isValidMutex s.mutex s.machine.kernel = false) = true := by
    decide +kernel
  obtain ⟨m, hm, hrun⟩ := (Option.any_eq_true _ _).mp hrun
  obtain ⟨s, hs, hrun⟩ := (Option.any_eq_true _ _).mp hrun
  obtain ⟨hpid, hidle, hname, hplace, hfailed, hinvalid⟩ := of_decide_eq_true hrun
  have hstart : IsStart ⟨2, 2, 0⟩ (startOf m) :=
    isStart_startOf (reachable_of_execute IsBoot isBoot_bootedMachine hm) hpid hidle hname
  have hreach := reachable_of_execute (IsStart ⟨2, 2, 0⟩) hstart hs
  refine ⟨s, hreach, hplace, hfailed, fun hreports => ?_⟩
  have hvalid := (hreports.success hplace).mutex.2
  rw [hinvalid] at hvalid
  exact absurd hvalid (by decide)

end GatOS.StartSemaphores
