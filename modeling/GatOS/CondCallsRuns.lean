import GatOS.CondWaiters
import GatOS.PageCalls

/-!
# No signal is lost

The runs of `cond_wait`, `cond_signal` and `cond_broadcast` in which each signal is heard.
-/
namespace GatOS.CondCalls
open Cond QueuedMutex Scheduler Transition

/-! ### The machine -/

structure Invariant (s : State) : Prop where
  isRing : RingInvariant s.machine.sched
  inRing : ∀ p, s.calls p ≠ none → p ∈ ring s.machine.sched
  sound : Sound s.calls s.queue s.machine.waiting (BlockedSlot s.machine.sched) s.current
  linked : ∀ key q, (s.conds.openConds key).processQueue = some q →
    q.elems = [] ∨ q.linked = true
  signal : ∀ record, (Kind.signal, record) ∈ s.finished →
    record.woken ≠ [] ∨ ∀ p, record.left p = false
  broadcast : ∀ record, (Kind.broadcast, record) ∈ s.finished → ∀ p, record.left p = false

section

variable {s t : State} {m : Machine} {key lockKey : ℤ} {node : ℕ} {new : Option Call}
  {kind : Kind} {record : Record}

theorem Invariant.inRing_goto (h : Invariant s) (p : ℕ) (hp : (s.goto new).calls p ≠ none) :
    p ∈ ring s.machine.sched := by
  by_cases hc : p = s.current
  · rw [hc]
    exact h.isRing.current_mem
  · exact h.inRing p (by simpa [State.goto, hc] using hp)

/-- Only the calls of the running process are changed. -/
theorem Invariant.goto (h : Invariant s) (hsound : Sound (Function.update s.calls s.current new)
    s.queue s.machine.waiting (BlockedSlot s.machine.sched) s.current) :
    Invariant (s.goto new) :=
  ⟨h.isRing, fun p => h.inRing_goto p, hsound, h.linked, h.signal, h.broadcast⟩

/-- The calls and the queues of the variables are as before. -/
theorem Invariant.withMachine (h : Invariant s) (hring : RingInvariant m.sched)
    (hmem : ∀ a, a ∈ ring s.machine.sched → a ∈ ring m.sched)
    (hsound : Sound s.calls s.queue m.waiting (BlockedSlot m.sched) m.sched.current) :
    Invariant (s.withMachine m) :=
  ⟨hring, fun p hp => hmem p (h.inRing p hp), hsound, h.linked, h.signal, h.broadcast⟩

theorem Invariant.mutexLock (h : Invariant s) (hc : ¬ BlockedSlot s.machine.sched s.current)
    (hafter : AfterLock (s.calls s.current)) (ht : s.mutexLock key node = some t) :
    Invariant t := by
  obtain ⟨⟨result, m⟩, hm, rfl⟩ := Option.map_eq_some_iff.mp ht
  obtain ⟨hring, hmem, hcases⟩ := mutexLock_spec h.isRing hm
  refine h.withMachine hring (fun a => (hmem a).mpr) ?_
  rcases hcases with ⟨hsched, hwaiting⟩ | ⟨hblocked, hawake, hwaiting, hother⟩
  · dsimp only at hsched hwaiting
    rw [hsched, show m.waiting = s.machine.waiting from funext hwaiting]
    exact h.sound
  · exact h.sound.suspend hc hafter hwaiting hother hblocked hawake

theorem Invariant.mutexUnlock (h : Invariant s) (ht : s.mutexUnlock key = some t) :
    Invariant t := by
  obtain ⟨u, hu, rfl⟩ := Option.map_eq_some_iff.mp ht
  obtain ⟨hring, hmem, hcurrent, hcases⟩ :=
    mutexUnlock_spec h.isRing (fun p hp => (h.sound.parked key p hp).1) hu
  refine h.withMachine hring (fun a => (hmem a).mpr) ?_
  rcases hcases with ⟨hsched, hwaiting⟩ | ⟨p, rest, hw, hrest, hother, hblocked⟩
  · rw [hsched, show u.after.waiting = s.machine.waiting from funext hwaiting]
    exact h.sound
  · rw [hcurrent]
    exact h.sound.handOver hw hrest hother hblocked

theorem afterLock_goto {call : Call} (h : call.afterLock = true := by rfl) :
    AfterLock ((s.goto (some call)).calls (s.goto (some call)).current) := by
  simp [AfterLock, State.goto, State.current, State.machine, h]

/-- The running process has blocked itself only at the end of a `cond_wait`. -/
theorem Invariant.awake (h : Invariant s)
    (hcall : ∀ key lockKey, s.calls s.current ≠ some (.wait key lockKey .yield)) :
    ¬ BlockedSlot s.machine.sched s.current := fun hb => by
  obtain ⟨key, lockKey, hwait⟩ := h.sound.running hb
  exact hcall key lockKey hwait

/-! ### The statements of `cond_wait` -/

theorem Invariant.enqueue (h : Invariant s)
    (hcall : s.calls s.current = some (.wait key lockKey .enqueue)) (hnode : node ≠ null)
    (hqueue : (s.conds.openConds key).processQueue.isSome) :
    Invariant ((s.goto (some (.wait key lockKey .unlockQueue))).enqueue key node s.current) := by
  obtain ⟨q, hq⟩ := Option.isSome_iff_exists.mp hqueue
  have hawake := h.awake fun k l => by simp [hcall]
  set u := s.goto (some (.wait key lockKey .unlockQueue)) with hu
  have heq : u.enqueue key node s.current =
      u.setQueue key (some (QueuedMutex.enqueue node s.current q)) := by
    unfold State.enqueue
    rw [show (u.conds.openConds key).processQueue = some q from hq]
    simp only [if_neg hnode]
  have helems : QueuedMutex.enqueue node s.current q = ⟨q.elems ++ [s.current], true⟩ := by
    unfold QueuedMutex.enqueue
    rcases h.linked key q hq with hnil | hlinked
    · simp [hnil, hnode]
    · by_cases hnil : q.elems = []
      · simp [hnil, hnode]
      · simp [hnil, hnode, hlinked]
  have hself : s.queue key = q.elems := by simp [State.queue, hq]
  rw [heq, helems]
  refine ⟨h.isRing, fun p hp => h.inRing_goto p hp, ?_, fun k q' hq' => ?_, h.signal, h.broadcast⟩
  · refine h.sound.enqueue hawake hcall ?_ fun k hk => ?_
    · simp [State.queue, State.setQueue, Conds.setCond, hq]
    · simp [State.queue, State.setQueue, Conds.setCond, hk, hu, State.goto]
  · by_cases hk : k = key
    · subst hk
      obtain rfl : (⟨q.elems ++ [s.current], true⟩ : QueuedMutex.Queue) = q' := by
        simpa [State.setQueue, Conds.setCond] using hq'
      exact Or.inr rfl
    · refine h.linked k q' ?_
      simpa [State.setQueue, Conds.setCond, hk, hu, State.goto] using hq'

theorem Invariant.block (h : Invariant s)
    (hcall : s.calls s.current = some (.wait key lockKey .block)) :
    Invariant ((s.goto (some (.wait key lockKey .yield))).changeProcessState s.current
      .blocked) := by
  have hawake := h.awake fun k l => by simp [hcall]
  have hin : s.current ∈ ring s.machine.sched := h.isRing.current_mem
  obtain ⟨hring, hmem, hcurrent, hblocked⟩ := changeProcessState_slots h.isRing hin .blocked
  refine ⟨hring, fun p hp => (hmem p).mpr (h.inRing_goto p hp), ?_, h.linked, h.signal,
    h.broadcast⟩
  show Sound _ _ _ _ (s.machine.changeProcessState s.current .blocked).sched.current
  have hcurrent : (s.machine.changeProcessState s.current .blocked).sched.current = s.current :=
    hcurrent
  rw [hcurrent]
  refine h.sound.block hawake hcall fun a => (hblocked a).trans ?_
  by_cases ha : a = s.current
  · rw [if_pos ha]
    simp [ha]
  · rw [if_neg ha]
    simp [ha]

theorem Invariant.yield (h : Invariant s)
    (hcall : s.calls s.current = some (.wait key lockKey .yield))
    (hm : s.machine.yield = some m) :
    Invariant ((s.goto (some (.wait key lockKey .relock))).withMachine m) := by
  obtain ⟨sched, rfl, hring, hmem, hblocked, hawake⟩ := switch_slots h.isRing hm
  have hsame : BlockedSlot sched = BlockedSlot s.machine.sched :=
    funext fun a => propext (hblocked a)
  refine ⟨hring, fun p hp => hmem p (h.inRing_goto p hp), ?_, h.linked, h.signal, h.broadcast⟩
  rw [hsame] at hawake
  show Sound _ _ s.machine.waiting (BlockedSlot sched) sched.current
  rw [hsame]
  exact h.sound.yield hcall hawake

theorem Invariant.runWait {place : WaitPlace} (h : Invariant s)
    (hcall : s.calls s.current = some (.wait key lockKey place))
    (hheard : (Call.wait key lockKey place).Heard s node)
    (ht : s.runWait node key lockKey place = some t) : Invariant t := by
  cases place with
  | unlockMutex =>
    have hawake := h.awake fun k l => by simp [hcall]
    have hsound : Sound (Function.update s.calls s.current (some (.wait key lockKey .lockQueue)))
        s.queue s.machine.waiting (BlockedSlot s.machine.sched) s.current :=
      h.sound.proceedWait hawake hcall (fun k => by simp [Call.enqueued])
        (fun k => by simp [Call.asleep]) fun k hb => by simp [Call.between] at hb
    exact (h.goto hsound).mutexUnlock ht
  | lockQueue =>
    have hawake := h.awake fun k l => by simp [hcall]
    have hsound : Sound (Function.update s.calls s.current (some (.wait key lockKey .enqueue)))
        s.queue s.machine.waiting (BlockedSlot s.machine.sched) s.current :=
      h.sound.proceedWait hawake hcall (fun k => by simp [Call.enqueued])
        (fun k => by simp [Call.asleep]) fun k hb => by simpa [Call.between] using hb
    exact (h.goto hsound).mutexLock hawake afterLock_goto ht
  | enqueue =>
    obtain rfl := Option.some.inj ht
    exact h.enqueue hcall hheard.1 hheard.2
  | unlockQueue =>
    have hawake := h.awake fun k l => by simp [hcall]
    have hsound : Sound (Function.update s.calls s.current (some (.wait key lockKey .block)))
        s.queue s.machine.waiting (BlockedSlot s.machine.sched) s.current :=
      h.sound.proceedWait hawake hcall (fun k => by simp [Call.enqueued])
        (fun k => by simp [Call.asleep]) fun k hb => by simp [Call.between] at hb
    exact (h.goto hsound).mutexUnlock ht
  | block =>
    obtain rfl := Option.some.inj ht
    exact h.block hcall
  | yield =>
    obtain ⟨m, hm, rfl⟩ := Option.map_eq_some_iff.mp ht
    exact h.yield hcall hm
  | relock =>
    have hawake := h.awake fun k l => by simp [hcall]
    exact (h.goto (h.sound.proceedRelock hawake hcall)).mutexLock hawake afterLock_goto ht
  | ret =>
    obtain rfl := Option.some.inj ht
    have hawake := h.awake fun k l => by simp [hcall]
    refine h.goto (h.sound.proceedNone hawake (fun k => ?_) (fun k p => ?_) fun k => ?_)
    · simp [hcall, Enqueued, Call.enqueued]
    · rw [hcall]
      exact not_takes_wait
    · simp [hcall, Between, Call.between]

/-! ### The statements of `cond_signal` and `cond_broadcast` -/

theorem isEmpty_iff : isEmpty (s.conds.openConds key).processQueue = true ↔ s.queue key = [] := by
  unfold State.queue
  cases (s.conds.openConds key).processQueue <;> simp [isEmpty]

/-- When the queue is empty, nobody is left. -/
theorem Invariant.nobodyLeft (h : Invariant s) {place : WakePlace} {c : ℕ}
    (hcall : s.calls c = some (.wake kind key place record)) (hempty : s.queue key = [])
    (hnobody : NobodyBetween s key record) (p : ℕ) : record.left p = false := by
  by_contra hleft
  rw [Bool.not_eq_false] at hleft
  rcases h.sound.left c kind key place record hcall p hleft with hb | hin
  · have hcalls : s.calls p ≠ none := by
      intro hnone
      rw [hnone] at hb
      exact (not_waits_none key p).2.2.1 hb
    have hout : (s.calls p).any (Call.between key) = false := hnobody p (h.inRing p hcalls) hleft
    rw [Between, hout] at hb
    exact absurd hb Bool.false_ne_true
  · simp [hempty] at hin

theorem Invariant.lockWake (h : Invariant s)
    (hcall : s.calls s.current = some (.wake kind key .lock record))
    (ht : (s.goto (some (.wake kind key .test record))).mutexLock (s.lockQueue key) node = some t) :
    Invariant t := by
  have hawake := h.awake fun k l => by simp [hcall]
  refine (h.goto (h.sound.proceedWake hawake hcall (fun k p => ?_) ?_)).mutexLock hawake ?_ ht
  · simp [Takes]
  · cases kind <;> trivial
  · exact afterLock_goto

theorem Invariant.testWake (h : Invariant s)
    (hcall : s.calls s.current = some (.wake kind key .test record))
    (hheard : s.queue key = [] → NobodyBetween s key record) :
    Invariant (s.goto (some (.wake kind key
      (if isEmpty (s.conds.openConds key).processQueue then .unlock null else .dequeue)
        record))) := by
  have hawake := h.awake fun k l => by simp [hcall]
  refine h.goto (h.sound.proceedWake hawake hcall (fun k p => ?_) ?_)
  · split_ifs <;> simp [Takes]
    tauto
  · split_ifs with hempty
    · have hleft := h.nobodyLeft hcall (isEmpty_iff.mp hempty) (hheard (isEmpty_iff.mp hempty))
      cases kind with
      | signal => exact Or.inr hleft
      | broadcast => exact ⟨rfl, hleft⟩
    · cases kind <;> trivial

theorem Invariant.inRing_of_enqueued (h : Invariant s) {p : ℕ} (hp : Enqueued key (s.calls p)) :
    p ∈ ring s.machine.sched :=
  h.inRing p fun hnone => (not_waits_none key p).1 (hnone ▸ hp)

theorem Invariant.inRing_drop (h : Invariant s) {p : ℕ} (a : ℕ)
    (ha : Function.update (fun a => (s.calls a).map (Call.drop p)) s.current new a ≠ none) :
    a ∈ ring s.machine.sched := by
  by_cases hc : a = s.current
  · rw [hc]
    exact h.isRing.current_mem
  · refine h.inRing a fun hnone => ha ?_
    rw [Function.update_of_ne hc, hnone]
    rfl

/-- The first process in the queue is taken out. -/
theorem Invariant.dequeue_first (h : Invariant s) {place : WakePlace} {p : ℕ} {rest : List ℕ}
    (hcall : s.calls s.current = some (.wake kind key .dequeue record))
    (hqueue : s.queue key = p :: rest) (hplace : place = .unlock p ∨ place = .wake p)
    (hprogress : p ≠ null → (Call.wake kind key place record).Progress) :
    (s.dequeue key).1 = p ∧ Invariant ((s.dequeue key).2.goto
      (some ((Call.wake kind key place record).drop p))) := by
  have hawake := h.awake fun k l => by simp [hcall]
  obtain ⟨linked, hq⟩ : ∃ linked,
      (s.conds.openConds key).processQueue = some ⟨p :: rest, linked⟩ := by
    unfold State.queue at hqueue
    cases hq : (s.conds.openConds key).processQueue with
    | none => simp [hq] at hqueue
    | some q =>
      obtain ⟨elems, linked⟩ := q
      obtain rfl : elems = p :: rest := by simpa [hq] using hqueue
      exact ⟨linked, rfl⟩
  have hdequeue : s.dequeue key = (p, { s.setQueue key (some ⟨rest, linked⟩) with
      calls := fun a => (s.calls a).map (Call.drop p) }) := by
    simp only [State.dequeue, hq, QueuedMutex.dequeue]
  have hlinked : linked = true := by simpa using h.linked key _ hq
  have hp : p ∈ ring s.machine.sched :=
    h.inRing_of_enqueued (h.sound.queued key p (by simp [hqueue])).1
  have hne : p ≠ null := fun he => h.isRing.null_notMem (he ▸ hp)
  have hdropped : (s.calls s.current).map (Call.drop p) =
      some ((Call.wake kind key .dequeue record).drop p) := by
    rw [hcall]
    rfl
  rw [hdequeue]
  refine ⟨rfl, h.isRing, fun a => h.inRing_drop a, ?_, fun k q hk => ?_, h.signal, h.broadcast⟩
  · refine (h.sound.drop p).dequeue hawake hdropped hplace hqueue ?_ (fun k hk => ?_) hne
      (fun a kind k place record ha => not_left_drop ha) ((hprogress hne).drop p)
    · simp [State.goto, State.queue, State.setQueue, Conds.setCond]
    · simp [State.goto, State.queue, State.setQueue, Conds.setCond, hk]
  · by_cases hkey : k = key
    · subst hkey
      obtain rfl : (⟨rest, linked⟩ : QueuedMutex.Queue) = q := by
        simpa [State.goto, State.setQueue, Conds.setCond] using hk
      exact Or.inr hlinked
    · refine h.linked k q ?_
      simpa [State.goto, State.setQueue, Conds.setCond, hkey] using hk

/-- A signal finds nobody, and nobody is left. -/
theorem Invariant.dequeue_nobody (h : Invariant s)
    (hcall : s.calls s.current = some (.wake .signal key .dequeue record))
    (hqueue : s.queue key = []) (hnobody : NobodyBetween s key record) :
    (s.dequeue key).1 = null ∧ Invariant ((s.dequeue key).2.goto
      (some ((Call.wake .signal key (.unlock null) record).drop null))) := by
  have hawake := h.awake fun k l => by simp [hcall]
  have hleft := h.nobodyLeft hcall hqueue hnobody
  have hdequeue : QueuedMutex.dequeue (s.conds.openConds key).processQueue =
      (null, (s.conds.openConds key).processQueue) := by
    unfold State.queue at hqueue
    cases hq : (s.conds.openConds key).processQueue with
    | none => rfl
    | some q =>
      obtain ⟨elems, linked⟩ := q
      obtain rfl : elems = [] := by simpa [hq] using hqueue
      rfl
  have hsame : s.setQueue key (s.conds.openConds key).processQueue = s := by
    simp [State.setQueue, Conds.setCond]
  have hdropped : (s.calls s.current).map (Call.drop null) =
      some ((Call.wake .signal key .dequeue record).drop null) := by
    rw [hcall]
    rfl
  simp only [State.dequeue, hdequeue, hsame]
  refine ⟨trivial, h.isRing, fun a => h.inRing_drop a, ?_, h.linked, h.signal, h.broadcast⟩
  refine (h.sound.drop null).proceedWake hawake hdropped (fun k p => ?_) ?_
  · simp [Takes]
    tauto
  · have hprogress : (Call.wake .signal key (.unlock null) record).Progress := Or.inr hleft
    exact hprogress.drop null

theorem Invariant.unlockWake (h : Invariant s) {place place' : WakePlace}
    (hcall : s.calls s.current = some (.wake kind key place record))
    (htakes : ∀ k p, Takes (some (.wake kind key place' record)) k p ↔
      Takes (some (.wake kind key place record)) k p)
    (hprogress : (Call.wake kind key place' record).Progress)
    (ht : (s.goto (some (.wake kind key place' record))).mutexUnlock (s.lockQueue key) = some t) :
    Invariant t := by
  have hawake := h.awake fun k l => by simp [hcall]
  exact (h.goto (h.sound.proceedWake hawake hcall htakes hprogress)).mutexUnlock ht

/-- The process that has been taken out of the queue is made ready. -/
theorem Invariant.wake (h : Invariant s) {p : ℕ} {place : WakePlace}
    (hcall : s.calls s.current = some (.wake kind key (.wake p) record)) (hp : p ≠ null)
    (hasleep : Asleep key (s.calls p)) (hplace : place = .test ∨ place = .ret)
    (hprogress : ∀ record' : Record, record'.left = record.left → record'.woken ≠ [] →
      (Call.wake kind key place record').Progress) :
    Invariant ((s.wake key p record).2.goto
      (some (.wake kind key place (s.wake key p record).1))) := by
  have hawake := h.awake fun k l => by simp [hcall]
  have htakes : Takes (s.calls s.current) key p := ⟨hp, kind, record, Or.inr hcall⟩
  have hin := h.inRing_of_enqueued hasleep.enqueued
  have hsleeps : s.sleeps key p = true := by
    have hb := (h.sound.taken s.current key p htakes).2.1 hasleep
    simp only [State.sleeps, Bool.and_eq_true, decide_eq_true_eq]
    exact ⟨hasleep, hb.2⟩
  obtain ⟨hring, hmem, hcurrent, hblocked⟩ := changeProcessState_slots h.isRing hin .ready
  have hgoto : (s.wake key p record).2.current = s.current := hcurrent
  have hready : ∀ a, BlockedSlot (s.wake key p record).2.machine.sched a ↔
      BlockedSlot s.machine.sched a ∧ a ≠ p := by
    intro a
    refine (hblocked a).trans ?_
    by_cases ha : a = p
    · simp [ha]
    · simp [ha]
  have hdone : ∀ k a, ¬ Takes (some (.wake kind key place (s.wake key p record).1)) k a := by
    intro k a
    rcases hplace with rfl | rfl <;> simp [Takes]
  have hsound := h.sound.wake hawake hcall htakes hasleep hready hdone rfl
    (hprogress _ rfl (by simp [State.wake, hsleeps]))
  refine ⟨hring, fun a ha => (hmem a).mpr ?_, ?_, h.linked, h.signal, h.broadcast⟩
  · simp only [State.goto, hgoto] at ha
    have hgone : (s.goto (some (.wake kind key place (s.wake key p record).1))).calls a ≠ none := ha
    exact h.inRing_goto a hgone
  · simp only [State.goto, hgoto]
    show Sound _ _ _ _ (s.wake key p record).2.current
    rw [hgoto]
    exact hsound

/-- A call of `cond_signal` or `cond_broadcast` returns. -/
theorem Invariant.retWake (h : Invariant s)
    (hcall : s.calls s.current = some (.wake kind key .ret record)) :
    Invariant { s.goto none with finished := (kind, record) :: s.finished } := by
  have hawake := h.awake fun k l => by simp [hcall]
  have hprogress := h.sound.progress s.current _ hcall
  have hleave : Invariant (s.goto none) := by
    refine h.goto (h.sound.proceedNone hawake (fun k => ?_) (fun k p => ?_) fun k => ?_)
    · simp [hcall, Enqueued, Call.enqueued]
    · simp [hcall, Takes]
    · simp [hcall, Between, Call.between]
  refine ⟨hleave.isRing, hleave.inRing, hleave.sound, hleave.linked, fun r hr => ?_, fun r hr => ?_⟩
  · rcases List.mem_cons.mp hr with he | hr
    · obtain ⟨rfl, rfl⟩ := Prod.mk.inj he
      exact hprogress
    · exact h.signal r hr
  · rcases List.mem_cons.mp hr with he | hr
    · obtain ⟨rfl, rfl⟩ := Prod.mk.inj he
      exact hprogress
    · exact h.broadcast r hr

theorem Invariant.runSignal {place : WakePlace} (h : Invariant s)
    (hcall : s.calls s.current = some (.wake .signal key place record))
    (hheard : (Call.wake .signal key place record).Heard s node)
    (ht : s.runSignal node key record place = some t) : Invariant t := by
  cases place with
  | lock => exact h.lockWake hcall ht
  | test =>
    obtain rfl := Option.some.inj ht
    exact h.testWake hcall hheard
  | dequeue =>
    have hrun : (s.dequeue key).2.goto (some ((Call.wake .signal key
        (.unlock (s.dequeue key).1) record).drop (s.dequeue key).1)) = t := Option.some.inj ht
    rw [← hrun]
    cases hqueue : s.queue key with
    | nil =>
      obtain ⟨hp, hdequeue⟩ := h.dequeue_nobody hcall hqueue (hheard hqueue)
      rwa [hp]
    | cons p rest =>
      obtain ⟨hp, hdequeue⟩ := h.dequeue_first hcall hqueue (Or.inl rfl) Or.inl
      rwa [hp]
  | unlock p =>
    have hprogress := h.sound.progress s.current _ hcall
    have hnext : (Call.wake .signal key (.wake p) record).Progress := hprogress
    refine h.unlockWake hcall (fun k a => ?_) hnext ht
    simp [Takes]
  | wake p =>
    simp only [State.runSignal] at ht
    split_ifs at ht with hp
    · obtain rfl := Option.some.inj ht
      exact h.wake hcall hp (hheard hp) (Or.inr rfl) fun record' _ hwoken => Or.inl hwoken
    · obtain rfl := Option.some.inj ht
      have hawake := h.awake fun k l => by simp [hcall]
      have hprogress := (h.sound.progress s.current _ hcall).resolve_left hp
      refine h.goto (h.sound.proceedWake hawake hcall (fun k a => ?_) (Or.inr hprogress))
      simp only [ne_eq, not_not] at hp
      simp [Takes, hp]
      tauto
  | ret =>
    obtain rfl := Option.some.inj ht
    exact h.retWake hcall

theorem Invariant.runBroadcast {place : WakePlace} (h : Invariant s)
    (hcall : s.calls s.current = some (.wake .broadcast key place record))
    (hheard : (Call.wake .broadcast key place record).Heard s node)
    (ht : s.runBroadcast node key record place = some t) : Invariant t := by
  cases place with
  | lock => exact h.lockWake hcall ht
  | test =>
    obtain rfl := Option.some.inj ht
    exact h.testWake hcall hheard
  | dequeue =>
    have hrun : (s.dequeue key).2.goto (some ((Call.wake .broadcast key
        (.wake (s.dequeue key).1) record).drop (s.dequeue key).1)) = t := Option.some.inj ht
    rw [← hrun]
    cases hqueue : s.queue key with
    | nil => exact absurd hqueue hheard
    | cons p rest =>
      obtain ⟨hp, hdequeue⟩ := h.dequeue_first hcall hqueue (Or.inr rfl) fun hp => hp
      rwa [hp]
  | unlock p =>
    obtain ⟨hp, hleft⟩ := h.sound.progress s.current _ hcall
    have hnext : (Call.wake .broadcast key .ret record).Progress := hleft
    refine h.unlockWake hcall (fun k a => ?_) hnext ht
    simp [Takes, hp]
    tauto
  | wake p =>
    obtain rfl := Option.some.inj ht
    have hp : p ≠ null := h.sound.progress s.current _ hcall
    exact h.wake hcall hp (hheard hp) (Or.inl rfl) fun record' _ _ => trivial
  | ret =>
    obtain rfl := Option.some.inj ht
    exact h.retWake hcall

/-! ### Runs -/

theorem Invariant.run (h : Invariant s) {c : Call} (hcall : s.calls s.current = some c)
    (hheard : c.Heard s node) (ht : s.run node c = some t) : Invariant t := by
  cases c with
  | wait key lockKey place => exact h.runWait hcall hheard ht
  | wake kind key place record =>
    cases kind with
    | signal => exact h.runSignal hcall hheard ht
    | broadcast => exact h.runBroadcast hcall hheard ht

theorem Invariant.begin (h : Invariant s) {c : Call} (henqueued : ∀ key, c.enqueued key = false)
    (htakes : ∀ key p, ¬ Takes (some c) key p)
    (hleft : ∀ kind key place record, c = .wake kind key place record →
      ∀ p, record.left p = true → Between key (s.calls p) ∨ p ∈ s.queue key)
    (hprogress : c.Progress) (ht : s.begin key c = some t) : Invariant t := by
  unfold State.begin at ht
  split_ifs at ht with hin hopen
  · obtain rfl := Option.some.inj ht
    have hnone : s.calls s.current = none := by simpa using hin
    have hawake := h.awake fun k l => by simp [hnone]
    exact h.goto (h.sound.begin hawake hnone henqueued htakes hleft hprogress)
  · obtain rfl := Option.some.inj ht
    exact h

theorem Invariant.beginWake (h : Invariant s)
    (ht : s.begin key (.wake kind key .lock ⟨s.released key, []⟩) = some t) : Invariant t := by
  have hprogress : (Call.wake kind key .lock ⟨s.released key, []⟩).Progress := by
    cases kind <;> trivial
  refine h.begin (fun k => rfl) (fun k p => by simp [Takes])
    (fun kind' k place record he p hp => ?_) hprogress ht
  obtain ⟨rfl, rfl, rfl, rfl⟩ := Call.wake.inj he
  simpa [State.released, State.between, Between] using hp

theorem Invariant.tick (h : Invariant s) (ht : step s .tick = some t) : Invariant t := by
  obtain ⟨m, hm, rfl⟩ := Option.map_eq_some_iff.mp ht
  obtain ⟨sched, rfl, hring, hmem, hblocked, hawake⟩ := switch_slots h.isRing hm
  have hsame : BlockedSlot sched = BlockedSlot s.machine.sched :=
    funext fun a => propext (hblocked a)
  refine h.withMachine hring hmem ?_
  rw [hsame] at hawake
  show Sound _ _ s.machine.waiting (BlockedSlot sched) sched.current
  rw [hsame]
  exact h.sound.switch hawake

theorem Invariant.createProcess (h : Invariant s) {page : ℕ}
    (ht : CondCalls.step s (.createProcess page) = some t) : Invariant t := by
  simp only [CondCalls.step] at ht
  split_ifs at ht with hpage
  rw [← Option.some.inj ht]
  obtain ⟨hmem, hblocked⟩ := createProcess_slots h.isRing hpage
  have hcurrent := (createProcess_registers h.isRing.current_ne_null page).1
  have hsame : BlockedSlot (Scheduler.createProcess page s.machine.sched).2 =
      BlockedSlot s.machine.sched := funext fun a => propext (hblocked a)
  refine h.withMachine (h.isRing.createProcess hpage).1 (fun a ha => (hmem a).mpr (Or.inr ha)) ?_
  dsimp only
  rw [hsame, hcurrent]
  exact h.sound

theorem Invariant.step (h : Invariant s) {e : Event} (hheard : e.Heard s)
    (ht : CondCalls.step s e = some t) : Invariant t := by
  cases e with
  | condWait key lockKey =>
    exact h.begin (fun k => by simp [Call.enqueued]) (fun k p => not_takes_wait)
      (fun _ _ _ _ he => by simp at he) trivial ht
  | condSignal key => exact h.beginWake ht
  | condBroadcast key => exact h.beginWake ht
  | mutexLock key node =>
    simp only [CondCalls.step] at ht
    split_ifs at ht with hin
    have hnone : s.calls s.current = none := by simpa using hin
    exact h.mutexLock (h.awake fun k l => by simp [hnone]) (by simp [hnone, AfterLock]) ht
  | mutexUnlock key =>
    simp only [CondCalls.step] at ht
    split_ifs at ht with hin
    exact h.mutexUnlock ht
  | run node =>
    obtain ⟨c, hcall, hrun⟩ := Option.bind_eq_some_iff.mp ht
    exact h.run hcall (hheard c hcall) hrun
  | tick => exact h.tick ht
  | createProcess page => exact h.createProcess ht

theorem invariant_start (hs : IsStart s) : Invariant s := by
  obtain ⟨hfresh, hempty, hnone, hfinished⟩ := hs
  obtain ⟨hring, hnotBlocked, hnobody⟩ := isFresh_quiet hfresh
  have hout : ∀ key p, ¬ Enqueued key (s.calls p) ∧ ¬ Asleep key (s.calls p) ∧
      ¬ Between key (s.calls p) ∧ ∀ q, ¬ Takes (s.calls p) key q := by
    intro key p
    rw [hnone p]
    exact ⟨(not_waits_none key p).1, (not_waits_none key p).2.1, (not_waits_none key p).2.2.1,
      fun q => (not_waits_none key q).2.2.2⟩
  refine ⟨hring, fun p hp => absurd (hnone p) hp,
    ⟨⟨fun hb => absurd hb (hnotBlocked _), fun k p hp => ?_, fun k => ?_, fun k k' p hp => ?_⟩,
      ⟨fun key p hp => ?_, fun key => ?_, fun q key p hq => absurd hq ((hout key q).2.2.2 p),
        fun key p hp => absurd hp (hout key p).1⟩,
      ⟨fun q kind key place record hq => ?_, fun q c hq => ?_⟩⟩,
    fun key q hq => ?_, fun r hr => ?_, fun r hr => ?_⟩
  · simp [hnobody k] at hp
  · simp [hnobody k]
  · simp [hnobody k] at hp
  · simp [hempty key] at hp
  · simp [hempty key]
  · simp [hnone q] at hq
  · simp [hnone q] at hq
  · exact Or.inl (by simpa [State.queue, hq] using hempty key)
  · simp [hfinished] at hr
  · simp [hfinished] at hr

theorem Invariant.noneLost (h : Invariant s) : NoneLost s := by
  refine ⟨h.signal, h.broadcast, fun key p hp => ?_⟩
  simp only [State.sleeps, Bool.and_eq_true, decide_eq_true_eq] at hp
  have hasleep : Asleep key (s.calls p) := hp.1
  exact h.sound.held key p hasleep.enqueued fun _ =>
    ⟨h.inRing_of_enqueued hasleep.enqueued, hp.2⟩

/-- No signal is lost in a run in which each one is heard. -/
theorem none_lost_while_heard (h : (system.restrict fun s e => e.Heard s).Reachable s) :
    NoneLost s := by
  have hinv : Invariant s := by
    refine h.invariant (I := Invariant) (fun _ hs => invariant_start hs) ?_
    rintro s e t hinv ⟨hheard, hstep⟩
    exact hinv.step hheard hstep
  exact hinv.noneLost

end

/-- One variable and two mutexes are open. The second mutex is the lock of the variable's queue. -/
def oneVariable : State where
  conds :=
    { machine := PageCalls.twoMutexes
      openConds := fun key =>
        if key = 0 then ⟨[99], opened, 1, createQueue (pageAt 10)⟩ else ⟨[], 0, 0, none⟩
      arrayLock := 0 }
  calls := fun _ => none
  finished := []

theorem isStart_oneVariable : IsStart oneVariable := by
  refine ⟨PageCalls.isFresh_setMutex isFresh_oneMutex 1 [115] (pageAt 8), fun key => ?_,
    fun _ => rfl, rfl⟩
  have hpage : pageAt 10 ≠ null := by decide
  by_cases hkey : key = 0
  · simp [State.queue, oneVariable, hkey, createQueue, hpage]
  · simp [State.queue, oneVariable, hkey]

/-- Process 2 sleeps, and process 1 wakes it. -/
theorem none_lost_while_heard_woken : ∃ s, s.finished.map (fun r => r.2.woken) = [[pageAt 2]] ∧
    NoneLost s := by
  obtain ⟨s, hs, hview⟩ := reachable_restrict_of_execute IsStart isStart_oneVariable
    (show (execute (guarded (fun s e => Event.Heard s e) step) oneVariable
      [.createProcess (pageAt 1), .createProcess (pageAt 2), .tick, .mutexLock 0 0,
        .condWait 0 0, .run 0, .run (pageAt 11), .run (pageAt 11), .run 0, .run 0, .run 0,
        .condSignal 0, .run 0, .run 0, .run 0, .run 0, .run 0, .run 0]).map
        (fun s : State => s.finished.map fun r => r.2.woken) = some [[pageAt 2]] by decide +kernel)
  exact ⟨s, hview, none_lost_while_heard hs⟩

/-- Process 1 signals while process 2 has unlocked its mutex and is not in the queue yet. Then
process 2 goes to sleep. -/
theorem signal_lost : ∃ s, system.Reachable s ∧ s.sleeps 0 (pageAt 2) = true ∧
    (∃ record, (Kind.signal, record) ∈ s.finished ∧ record.left (pageAt 2) = true ∧
      record.woken = []) ∧ ¬ NoneLost s := by
  obtain ⟨s, hpath, hview⟩ := exists_path_of_execute IsStart
    (show (execute step oneVariable
      [.createProcess (pageAt 1), .createProcess (pageAt 2), .tick, .mutexLock 0 0,
        .condWait 0 0, .run 0, .tick, .condSignal 0, .run 0, .run 0, .run 0, .run 0, .run 0,
        .tick, .tick, .run 0, .run (pageAt 11), .run 0, .run 0, .run 0]).map
        (fun s : State => (s.sleeps 0 (pageAt 2), s.finished.map fun r =>
          (decide (r.1 = .signal), r.2.left (pageAt 2), r.2.woken))) =
      some (true, [(true, true, [])]) by decide +kernel)
  obtain ⟨hsleeps, hfinished⟩ := Prod.mk.inj hview
  obtain ⟨⟨kind, record⟩, hrecord, hview⟩ := List.map_eq_singleton_iff.mp hfinished
  simp only [Prod.mk.injEq, decide_eq_true_eq] at hview
  obtain ⟨rfl, hleft, hwoken⟩ := hview
  have hmem : (Kind.signal, record) ∈ s.finished := by simp [hrecord]
  refine ⟨s, hpath.reachable (System.Reachable.start isStart_oneVariable), hsleeps,
    ⟨record, hmem, hleft, hwoken⟩, fun hlost => ?_⟩
  rcases hlost.signal record hmem with hwoke | hnobody
  · exact hwoke hwoken
  · exact absurd hleft (by simp [hnobody])

end GatOS.CondCalls
