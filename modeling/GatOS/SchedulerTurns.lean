import GatOS.SchedulerRing
import GatOS.TurnTaking

/-!
# The turns of the processes

The init process can always run, so the loop of `schedule` ends within one turn of the ring, and
the processes that can run do so one after the other.
-/
namespace GatOS.Scheduler
open LinkedRing TurnTaking

/-- `schedule` with a bound on the turns of its loop. -/
def scheduleWithin (fuel : ℕ) (s : State) : Option State :=
  let s := if (s.processOf s.current).state = .running then s.setState s.current .ready else s
  (findReady s fuel (s.nextOf s.current)).map fun slot =>
    { s with current := slot }.setState slot .running

/-- The process in the slot waits for the processor or has it. -/
def Runnable (s : State) (a : ℕ) : Prop :=
  (s.processOf a).state = .ready ∨ (s.processOf a).state = .running

instance (s : State) (a : ℕ) : Decidable (Runnable s a) := inferInstanceAs (Decidable (_ ∨ _))

/-- The init process never blocks, and only the current process has the processor. -/
structure Schedulable (s : State) : Prop where
  isRing : IsRing s.nextOf s.current (ring s)
  init : ∃ a ∈ ring s, (s.processOf a).pid = initPid ∧ Runnable s a
  running : ∀ a ∈ ring s, (s.processOf a).state = .running → a = s.current

/-- The slots in the order in which `schedule` meets them. -/
def fromNext (s : State) : List ℕ := (ring s).rotate 1

/-- The processes that can run, the next one first. -/
def waiting (s : State) : List ℕ := (fromNext s).filter (Runnable s ·)

/-- The process in slot `x` gets the processor: it is the first one met that can run. Only the
states of this process and of the old current one change. -/
structure SwitchesTo (s t : State) (x : ℕ) : Prop where
  first : ∃ l₁ l₂, fromNext s = l₁ ++ x :: l₂ ∧ (∀ a ∈ l₁, ¬ Runnable s a) ∧ Runnable s x
  current : t.current = x
  nextOf : t.nextOf = s.nextOf
  cardinalProcesses : t.cardinalProcesses = s.cardinalProcesses
  process : ∀ a, t.processOf a = if a = x then { s.processOf a with state := .running }
    else if a = s.current then preempt (s.processOf a) else s.processOf a
  running : ∀ a ∈ ring s, (t.processOf a).state = .running ↔ a = x

variable {s t : State} {x : ℕ}

theorem schedule_eq (s : State) : schedule s = scheduleWithin s.cardinalProcesses s := by
  show (findReady s.preempted s.preempted.cardinalProcesses _).map _ = _
  rw [preempted_cardinalProcesses]
  rfl

/-- The loop ends as soon as it meets a process that is ready. -/
theorem findReady_of_chain {a x fuel : ℕ} {l : List ℕ} (h : Chain s.nextOf a l x)
    (hl : ∀ y ∈ l, (s.processOf y).state ≠ .ready) (hx : (s.processOf x).state = .ready)
    (hfuel : l.length < fuel) : findReady s fuel a = some x := by
  induction l generalizing a fuel with
  | nil =>
    obtain rfl : a = x := h
    cases fuel with
    | zero => exact absurd hfuel (Nat.not_lt_zero _)
    | succ fuel => simp [findReady, hx]
  | cons y l ih =>
    obtain ⟨rfl, h⟩ := h
    cases fuel with
    | zero => exact absurd hfuel (Nat.not_lt_zero _)
    | succ fuel =>
      have hy := hl a List.mem_cons_self
      simp only [findReady, hy, if_false]
      apply ih h (fun z hz => hl z (List.mem_cons_of_mem a hz))
      simpa using hfuel

theorem Schedulable.exists_cons (h : Schedulable s) :
    ∃ l, ring s = s.current :: l ∧ fromNext s = l ++ [s.current] := by
  obtain ⟨l, hl⟩ := h.isRing.eq_cons
  refine ⟨l, hl, ?_⟩
  simp [fromNext, hl]

theorem mem_fromNext {a : ℕ} : a ∈ fromNext s ↔ a ∈ ring s := List.mem_rotate

/-- What the current process gives back counts as ready. -/
theorem Schedulable.ready_iff (h : Schedulable s) {a : ℕ} (ha : a ∈ ring s) :
    (s.preempted.processOf a).state = .ready ↔ Runnable s a := by
  rw [preempted_processOf]
  by_cases hcur : a = s.current
  · rw [if_pos hcur, preempt]
    unfold Runnable
    split_ifs with hrun <;> simp [hrun]
  · have hne : (s.processOf a).state ≠ .running := fun hrun => hcur (h.running a ha hrun)
    simp [Runnable, hcur, hne]

/-- The way from the next process to the first one that can run. -/
theorem Schedulable.exists_first (h : Schedulable s) :
    ∃ l₁ x l₂, fromNext s = l₁ ++ x :: l₂ ∧ (∀ a ∈ l₁, ¬ Runnable s a) ∧ Runnable s x := by
  obtain ⟨a, ha, -, hrun⟩ := h.init
  have hfind : ((fromNext s).find? (Runnable s ·)).isSome := by
    rw [List.find?_isSome]
    exact ⟨a, mem_fromNext.mpr ha, by simpa using hrun⟩
  obtain ⟨x, hx⟩ := Option.isSome_iff_exists.mp hfind
  obtain ⟨hx, l₁, l₂, hsplit, hl₁⟩ := List.find?_eq_some_iff_append.mp hx
  exact ⟨l₁, x, l₂, hsplit, by simpa using hl₁, by simpa using hx⟩

theorem preempt_state_ne (p : Process) : (preempt p).state ≠ .running := by
  unfold preempt
  split_ifs with hrun
  · simp
  · exact hrun

/-- The slot `x` gets the processor. -/
def State.dispatched (s : State) (x : ℕ) : State :=
  { s.preempted with current := x }.setState x .running

theorem dispatched_nextOf (s : State) (x : ℕ) : (s.dispatched x).nextOf = s.nextOf :=
  (setState_nextOf ..).trans (preempted_nextOf s)

theorem dispatched_processOf (s : State) (x a : ℕ) : (s.dispatched x).processOf a =
    if a = x then { s.processOf a with state := .running }
    else if a = s.current then preempt (s.processOf a) else s.processOf a := by
  by_cases hax : a = x
  · subst hax
    have hpid : (s.preempted.processOf a).pid = (s.processOf a).pid := by
      rw [preempted_processOf]
      split_ifs <;> simp
    rw [State.dispatched, setState_processOf_self, if_pos rfl]
    show Process.mk (s.preempted.processOf a).pid .running = _
    rw [hpid]
  · rw [State.dispatched, setState_processOf_ne _ _ hax, if_neg hax]
    exact preempted_processOf s a

theorem Schedulable.dispatched_running (h : Schedulable s) (x : ℕ) {a : ℕ} (ha : a ∈ ring s) :
    ((s.dispatched x).processOf a).state = .running ↔ a = x := by
  rw [dispatched_processOf]
  split_ifs with hax hcur
  · simp [hax]
  · simp [hax, preempt_state_ne]
  · simp only [hax, iff_false]
    exact fun hrun => hcur (h.running a ha hrun)

/-- The loop looks at each process at most once. -/
theorem Schedulable.scheduleWithin (h : Schedulable s) :
    ∃ t x, (∃ turns ≤ s.cardinalProcesses, ∀ fuel, turns ≤ fuel →
      scheduleWithin fuel s = some t) ∧ SwitchesTo s t x := by
  obtain ⟨l₁, x, l₂, hsplit, hl₁, hx⟩ := h.exists_first
  obtain ⟨l, hl, hnext⟩ := h.exists_cons
  have hround : Chain s.nextOf (s.nextOf s.current) (l₁ ++ x :: l₂) (s.nextOf s.current) := by
    have hring := h.isRing
    rw [hl] at hring
    rw [← hsplit, hnext]
    exact hring.tail
  obtain ⟨c, hchain, rfl, -⟩ := chain_append.mp hround
  rw [← preempted_nextOf] at hchain
  have hmem : ∀ a ∈ l₁ ++ c :: l₂, a ∈ ring s := fun a ha =>
    mem_fromNext.mp (hsplit ▸ ha)
  have hready : (s.preempted.processOf c).state = .ready :=
    (h.ready_iff (hmem c (by simp))).mpr hx
  have hnot : ∀ a ∈ l₁, (s.preempted.processOf a).state ≠ .ready := fun a ha hr =>
    hl₁ a ha ((h.ready_iff (hmem a (List.mem_append_left _ ha))).mp hr)
  refine ⟨s.dispatched c, c, ⟨l₁.length + 1, ?_, fun fuel hfuel => ?_⟩,
    ⟨⟨l₁, l₂, hsplit, hl₁, hx⟩, rfl, dispatched_nextOf s c, preempted_cardinalProcesses s,
      dispatched_processOf s c, fun a ha => h.dispatched_running c ha⟩⟩
  · have hlen := congrArg List.length hsplit
    rw [fromNext, List.length_rotate, length_ring] at hlen
    rw [hlen]
    simp
  · show (findReady s.preempted fuel (s.preempted.nextOf s.preempted.current)).map _ = _
    rw [preempted_current, findReady_of_chain hchain hnot hready hfuel]
    rfl

/-! ### One call after the other -/

theorem SwitchesTo.runnable_iff (h : SwitchesTo s t x) (a : ℕ) :
    Runnable t a ↔ Runnable s a := by
  have hx : Runnable s x := by
    obtain ⟨l₁, l₂, -, -, hx⟩ := h.first
    exact hx
  unfold Runnable
  rw [h.process]
  split_ifs with hax hcur
  · subst hax
    exact iff_of_true (Or.inr rfl) hx
  · unfold preempt
    split_ifs with hrun <;> simp [hrun]
  · exact Iff.rfl

theorem SwitchesTo.pid (h : SwitchesTo s t x) (a : ℕ) :
    (t.processOf a).pid = (s.processOf a).pid := by
  rw [h.process]
  split_ifs <;> simp

/-- The ring is entered at the process that has the processor now. -/
theorem SwitchesTo.ring_eq (h : SwitchesTo s t x) (hs : Schedulable s) {l₁ l₂ : List ℕ}
    (hsplit : fromNext s = l₁ ++ x :: l₂) :
    IsRing t.nextOf t.current (ring t) ∧ ring t = x :: l₂ ++ l₁ := by
  obtain ⟨l, hl, hnext⟩ := hs.exists_cons
  have hring : IsRing s.nextOf (s.nextOf s.current) (fromNext s) := by
    have hround := hs.isRing
    rw [hl] at hround
    rw [hnext]
    exact ⟨hround.tail, by simp, List.nodup_append_comm.mp hround.nodup⟩
  rw [hsplit] at hring
  have hrot := hring.rotate
  rw [← h.nextOf] at hrot
  have heq : Scheduler.ring t = x :: l₂ ++ l₁ := by
    apply Scheduler.ring_eq
    · rw [h.current]
      exact hrot
    · rw [h.cardinalProcesses, ← length_ring, ← List.length_rotate (ring s) 1]
      show _ = (fromNext s).length
      rw [hsplit]
      simp only [List.length_append, List.length_cons]
      omega
  rw [heq, h.current]
  exact ⟨hrot, rfl⟩

theorem SwitchesTo.mem_ring (h : SwitchesTo s t x) (hs : Schedulable s) {a : ℕ} :
    a ∈ ring t ↔ a ∈ ring s := by
  obtain ⟨l₁, l₂, hsplit, -, -⟩ := h.first
  rw [(h.ring_eq hs hsplit).2, ← mem_fromNext, hsplit]
  simp only [List.mem_append, List.mem_cons]
  tauto

theorem SwitchesTo.schedulable (h : SwitchesTo s t x) (hs : Schedulable s) : Schedulable t := by
  obtain ⟨l₁, l₂, hsplit, -, -⟩ := h.first
  obtain ⟨a, ha, hpid, hrun⟩ := hs.init
  refine ⟨(h.ring_eq hs hsplit).1, ⟨a, (h.mem_ring hs).mpr ha, ?_, ?_⟩, fun b hb hr => ?_⟩
  · rw [h.pid, hpid]
  · rwa [h.runnable_iff]
  · rw [h.current]
    exact (h.running b ((h.mem_ring hs).mp hb)).mp hr

/-- The process that gets the processor goes to the end of those that wait. -/
theorem SwitchesTo.waiting (h : SwitchesTo s t x) (hs : Schedulable s) :
    ∃ l, waiting s = x :: l ∧ waiting t = l ++ [x] := by
  obtain ⟨l₁, l₂, hsplit, hl₁, hx⟩ := h.first
  have hring := (h.ring_eq hs hsplit).2
  have hskip : l₁.filter (Runnable s ·) = [] := by
    rw [List.filter_eq_nil_iff]
    simpa using hl₁
  have hsame : (fun a => decide (Runnable t a)) = fun a => decide (Runnable s a) := by
    funext a
    exact decide_eq_decide.mpr (h.runnable_iff a)
  refine ⟨l₂.filter (Runnable s ·), ?_, ?_⟩
  · rw [Scheduler.waiting, hsplit, List.filter_append, hskip]
    simp [hx]
  · have hnext : fromNext t = l₂ ++ l₁ ++ [x] := by simp [fromNext, hring]
    rw [Scheduler.waiting, hsame, hnext, List.filter_append, List.filter_append, hskip]
    simp [hx]

theorem takesTurns : TakesTurns schedule State.current waiting Schedulable := by
  intro s hs
  obtain ⟨t, x, ⟨turns, hturns, hrun⟩, h⟩ := hs.scheduleWithin
  obtain ⟨l, hl, hl'⟩ := h.waiting hs
  have hschedule : schedule s = some t := by
    rw [schedule_eq]
    exact hrun _ hturns
  refine ⟨t, l, hschedule, h.schedulable hs, ?_, ?_⟩
  · rw [h.current, hl]
  · rw [h.current, hl']

/-- `schedule` ends after one turn of the ring at most, and as many calls as there are processes
that can run give the processor to each of them once, in the order of the ring. -/
theorem schedule_in_turn (h : Schedulable s) :
    (∃ t x, (∃ turns ≤ s.cardinalProcesses, ∀ fuel, turns ≤ fuel →
      scheduleWithin fuel s = some t) ∧ schedule s = some t ∧ SwitchesTo s t x) ∧
    (waiting s).Nodup ∧ (∀ a, a ∈ waiting s ↔ a ∈ ring s ∧ Runnable s a) ∧
    ∃ u, serve schedule State.current (waiting s).length s = some (waiting s, u) := by
  obtain ⟨t, x, ⟨turns, hturns, hrun⟩, hswitch⟩ := h.scheduleWithin
  have hschedule : schedule s = some t := by
    rw [schedule_eq]
    exact hrun _ hturns
  refine ⟨⟨t, x, ⟨turns, hturns, hrun⟩, hschedule, hswitch⟩, ?_, fun a => ?_, ?_⟩
  · exact (List.nodup_rotate.mpr h.isRing.nodup).filter _
  · rw [waiting, List.mem_filter, mem_fromNext]
    simp
  · obtain ⟨u, hserve, -, -⟩ := takesTurns.serve_round h
    exact ⟨u, hserve⟩

/-- Process 1 has the processor, and process 2 behind it is blocked. -/
def threeSlots : State where
  slot a := if a = 0x1000000 then ⟨0x1004000, ⟨initPid, .ready⟩⟩
    else if a = 0x1004000 then ⟨0x1008000, ⟨1, .running⟩⟩
    else ⟨0x1000000, ⟨2, .blocked⟩⟩
  current := 0x1004000
  cardinalProcesses := 3
  pid := 3
  pages := [0x1008000, 0x1004000, 0x1000000]

theorem schedulable_threeSlots : Schedulable threeSlots := by
  have hring : ring threeSlots = [0x1004000, 0x1008000, 0x1000000] := by decide
  constructor
  · rw [hring]
    exact ⟨⟨rfl, rfl, rfl, rfl⟩, by decide, by decide⟩
  · exact ⟨0x1000000, by decide, by decide, by decide⟩
  · rw [hring]
    decide

theorem schedule_in_turn_threeProcesses :
    (∃ t, schedule threeSlots = some t ∧ t.current = 0x1000000) ∧
    ∃ u, serve schedule State.current 2 threeSlots = some ([0x1000000, 0x1004000], u) := by
  have hwaiting : waiting threeSlots = [0x1000000, 0x1004000] := by decide
  obtain ⟨⟨t, x, -, hschedule, hswitch⟩, -, -, hround⟩ :=
    schedule_in_turn schedulable_threeSlots
  rw [hwaiting] at hround
  obtain ⟨l, hl, -⟩ := hswitch.waiting schedulable_threeSlots
  rw [hwaiting] at hl
  exact ⟨⟨t, hschedule, hswitch.current.trans (List.cons.inj hl).1.symm⟩, hround⟩

end GatOS.Scheduler
