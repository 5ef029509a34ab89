import GatOS.Boot

/-!
# Wake-ups of removed processes

`removeProcess` takes a process out of the ring but not out of the queue it waits in. As long as
no waiting process is removed, every process that is taken out of a queue is in the ring.
-/
namespace GatOS.Sync
open Scheduler Transition

/-- No process is removed while it waits in a queue. -/
def RemovesNoWaiter (s : Machine) : Action → Prop
  | .removeProcess pid => ∀ q, pid ∉ s.kernel.waiters q
  | _ => True

def WaitersInRing (s : Machine) : Prop := ∀ q, ∀ p ∈ s.kernel.waiters q, p ∈ pids s.kernel.sched

section

variable {s t : Machine}

/-- Only the step `removeProcess` contains the operation. -/
theorem step_ops_of_removal {ok : Machine → Op → Prop} {a : Action}
    (hok : ∀ s op, (∀ pid, op ≠ .removeProcess pid) → ok s op)
    (hremove : ∀ pid, a = .removeProcess pid → ok s (.removeProcess pid))
    (h : step s a = some t) : Ops ok s t := by
  have hcreates : ∀ index s op, Op.Creates index op → ok s op := fun index s op hop =>
    hok s op fun pid he => by
      rw [he] at hop
      exact hop
  have hrest : ∀ rest : Rest, rest.Admitted ok s := fun rest => by
    cases rest with
    | wait j => exact fun s' _ => hok s' _ fun pid => by simp
    | semCreate name start => exact fun index _ s' op _ => hcreates index s' op
    | createSemaphore index name start pid => exact fun s' op _ => hcreates index s' op
    | _ => trivial
  refine step_ops (fun s op hop => hok s op fun pid he => ?_) ?_ h
  · rw [he] at hop
    exact hop
  · cases a with
    | removeProcess pid => exact hremove pid rfl
    | closeMutex mutex => exact hok s _ fun pid => by simp
    | semClose j => exact hok s _ fun pid => by simp
    | signal j => exact hok s _ fun pid => by simp
    | wait j garbage => exact fun _ _ => hrest (.wait j)
    | semCreate name start garbage => exact fun _ => hrest (.semCreate name start)
    | resume garbage => exact fun _ rest _ => hrest rest
    | _ => trivial

theorem op_waitersInRing {op : Op} (h : Settled s) (hring : WaitersInRing s)
    (henabled : op.Enabled s)
    (hok : ∀ pid, op = .removeProcess pid → ∀ q, pid ∉ s.kernel.waiters q)
    (hrun : op.perform s = some t) : WaitersInRing t := by
  by_cases hremove : ∃ pid, op = .removeProcess pid
  · obtain ⟨pid, rfl⟩ := hremove
    obtain ⟨-, -, hwait, hpids, -⟩ := h.removeProcess hrun
    intro q p hp
    rw [hwait] at hp
    exact (hpids p).mpr ⟨hring q p hp, Or.inl fun he => hok pid rfl q (he ▸ hp)⟩
  · obtain ⟨-, hjoins, hkeep⟩ := op_settled h henabled hrun
    intro q p hp
    refine hkeep (fun pid he => hremove ⟨pid, he⟩) p ?_
    rcases hjoins q p hp with hp | rfl
    · exact hring q p hp
    · exact getCurrentPid_mem h.parked.ring

theorem IsBoot.waitersInRing (h : IsBoot s) : WaitersInRing s := fun q p hp => by
  rw [h.booted.waiters] at hp
  exact absurd hp (by simp)

theorem reachable_waitersInRing (h : (machineSystem.restrict RemovesNoWaiter).Reachable s) :
    WaitersInRing s := by
  induction h with
  | start hs => exact IsBoot.waitersInRing hs
  | @next s t a hs hstep ih =>
    obtain ⟨hok, hstep⟩ := hstep
    have hops : Ops (fun s op => ∀ pid, op = .removeProcess pid → ∀ q, pid ∉ s.kernel.waiters q)
        s t := by
      refine step_ops_of_removal (fun s op hop pid he => absurd he (hop pid)) ?_ hstep
      rintro pid rfl pid' he
      obtain rfl := Op.removeProcess.inj he
      exact hok
    have hinv : Settled t ∧ WaitersInRing t :=
      hops.invariant (P := fun s => Settled s ∧ WaitersInRing s)
        (fun s op t hs he hok hrun =>
          ⟨(op_settled hs.1 he hrun).1, op_waitersInRing hs.1 hs.2 he hok hrun⟩)
        ⟨reachable_settled hs.of_restrict, ih⟩
    exact hinv.2

/-- A step other than `removeProcess` keeps every process in the ring. -/
theorem step_ring {a : Action} (h : Settled s) (hstep : step s a = some t)
    (ha : ∀ pid, a ≠ .removeProcess pid) {p : ℤ} (hp : p ∈ pids s.kernel.sched) :
    p ∈ pids t.kernel.sched := by
  have hops : Ops (fun _ op => ∀ pid, op ≠ .removeProcess pid) s t :=
    step_ops_of_removal (fun _ _ hop => hop) (fun pid he => absurd he (ha pid)) hstep
  have hinv : Settled t ∧ p ∈ pids t.kernel.sched :=
    hops.invariant (P := fun s => Settled s ∧ p ∈ pids s.kernel.sched)
      (fun s op t hs he hok hrun =>
        ⟨(op_settled hs.1 he hrun).1, (op_settled hs.1 he hrun).2.2 hok p hs.2⟩)
      ⟨h, hp⟩
  exact hinv.2

/-- In a run that removes no waiting process, whoever is taken out of a queue is in the ring. -/
theorem woken_in_ring (h : (machineSystem.restrict RemovesNoWaiter).Reachable s) {a : Action}
    (hstep : step s a = some t) {q : QueueId} {p : ℤ} (hp : p ∈ s.kernel.waiters q)
    (hout : p ∉ t.kernel.waiters q) : p ∈ pids s.kernel.sched ∧ p ∈ pids t.kernel.sched := by
  have hin := reachable_waitersInRing h q p hp
  have hsettled := reachable_settled h.of_restrict
  refine ⟨hin, step_ring hsettled hstep ?_ hin⟩
  rintro pid rfl
  simp only [step] at hstep
  split_ifs at hstep
  obtain ⟨-, -, hwait, -⟩ := hsettled.removeProcess hstep
  exact hout (hwait q ▸ hp)

end

/-! ### Runs -/

/-- Process 3 holds mutex 2, and the processes 2 and 1 wait for it. -/
def contended : List Action :=
  createProcesses 2 ++ [.tick, .getMutex 2 0, .lockMutex 2 0, .tick, .lockMutex 2 0,
    .lockMutex 2 0]

/-- The waiters for mutex 2 and the ring, before and after the mutex is freed. -/
def handOff (s : Machine) : (List ℤ × List ℤ) × Option (List ℤ × List ℤ) :=
  let view := fun s : Machine => (s.kernel.waiters (.mutex 2), pids s.kernel.sched)
  (view s, (step s (.freeMutex 2)).map view)

/-- A process is removed only if none of its calls is suspended. -/
def removesIdle (s : Machine) : Action → Bool
  | .removeProcess pid => (s.pending pid).isNone
  | _ => true

theorem removesNoWaiter_of_idle {s : Machine} (h : machineSystem.Reachable s) {a : Action}
    (hidle : removesIdle s a = true) : RemovesNoWaiter s a := by
  cases a with
  | removeProcess pid =>
    exact fun q => (reachable_settled h).parked.not_mem_of_none (by simpa [removesIdle] using hidle)
  | _ => trivial

/-- Process 4 is removed, then the mutex is handed over to process 2. -/
theorem woken_in_ring_handOff : ∃ s t, (machineSystem.restrict RemovesNoWaiter).Reachable s ∧
    step s (.freeMutex 2) = some t ∧ s.kernel.waiters (.mutex 2) = [2, 1] ∧
    t.kernel.waiters (.mutex 2) = [1] ∧ 2 ∈ pids s.kernel.sched ∧ 2 ∈ pids t.kernel.sched := by
  obtain ⟨s, hs, hf⟩ := reachable_restrict_of_execute IsBoot isBoot_bootedMachine
    (show (execute (guarded (fun s a => removesIdle s a = true) step) bootedMachine
      (contended ++ [.createProcess (pageAt 4), .removeProcess 4, .tick])).map handOff =
        some (([2, 1], [3, 2, 1, 0]), some ([1], [3, 2, 1, 0])) by decide +kernel)
  obtain ⟨hview, hstep⟩ := Prod.mk.inj hf
  obtain ⟨t, ht, hview'⟩ := Option.map_eq_some_iff.mp hstep
  have hwait := (Prod.mk.inj hview).1
  have hwait' := (Prod.mk.inj hview').1
  have hreach : (machineSystem.restrict RemovesNoWaiter).Reachable s :=
    hs.restrict_mono fun s a hs hidle => removesNoWaiter_of_idle hs hidle
  exact ⟨s, t, hreach, ht, hwait, hwait',
    woken_in_ring hreach ht (q := .mutex 2) (p := 2) (by rw [hwait]; decide)
      (by rw [hwait']; decide)⟩

/-- Process 2 is removed while it waits; the mutex is handed over to it and process 1 goes on
waiting. -/
theorem removed_process_woken : ∃ s t, machineSystem.Reachable s ∧
    step s (.freeMutex 2) = some t ∧ s.kernel.waiters (.mutex 2) = [2, 1] ∧
    t.kernel.waiters (.mutex 2) = [1] ∧ 2 ∉ pids s.kernel.sched ∧ 1 ∈ pids s.kernel.sched := by
  obtain ⟨s, hs, hf⟩ := reachable_replay
    (show (execute step bootedMachine (contended ++ [.removeProcess 2, .tick])).map handOff =
      some (([2, 1], [3, 1, 0]), some ([1], [3, 1, 0])) by decide +kernel)
  obtain ⟨hview, hstep⟩ := Prod.mk.inj hf
  obtain ⟨t, ht, hview'⟩ := Option.map_eq_some_iff.mp hstep
  obtain ⟨hwait, hpids⟩ := Prod.mk.inj hview
  refine ⟨s, t, hs, ht, hwait, (Prod.mk.inj hview').1, ?_, ?_⟩
  · rw [hpids]
    decide
  · rw [hpids]
    decide

end GatOS.Sync
