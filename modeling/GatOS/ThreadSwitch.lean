import GatOS.ThreadTables

/-!
# Switching between threads

A switch stores the stack pointer of the running thread in its record and goes on with the one that
another thread was suspended with. Only a thread that is not the first of its process ends without
a record for the switch that follows.
-/
namespace GatOS.Threads
open BuddyAllocator Scheduler Transition

/-- In each reachable state the processes are in a ring and their threads have records. -/
structure ThreadInvariant (s : Machine) : Prop where
  ring : RingInvariant s.sched
  tables : ∃ ns, Tables s ns s.sched.pid
  active : Active s s.sched.pid

/-- The stack pointer `rsp` is in a record of the process that ran, and `sp` is the one that the
thread that runs was suspended with. -/
structure Switched (s t : Machine) (rsp sp : ℕ) : Prop where
  existed : s.activeRecord ∈ s.live
  stored : (t.record s.activeRecord).userStack = rsp
  live : t.activeRecord ∈ t.live
  resumed : t.saved t.pid t.current.activeThread = some sp

section

variable {s t u : Machine} {ns : List ℕ} {n : ℤ} {rsp : ℕ}

theorem ThreadInvariant.pid_range (h : ThreadInvariant s) : 0 ≤ s.pid ∧ s.pid < s.sched.pid :=
  h.ring.pid_range _ (getCurrentPid_mem h.ring)

theorem schedule_pages {k k' : State} (h : Scheduler.schedule k = some k') :
    k'.pages = k.pages ∧ k'.pid = k.pid := by
  unfold Scheduler.schedule at h
  obtain ⟨slot, -, rfl⟩ := Option.map_eq_some_iff.mp h
  rw [setState_pages, setState_pid]
  dsimp only
  split_ifs <;> exact ⟨rfl, rfl⟩

theorem Tables.of_sched (h : Tables s ns n) {sched : State} (hpages : sched.pages = s.sched.pages) :
    Tables { s with sched } ns n := by
  refine ⟨h.marks, ?_, ?_, h.owned, h.record, h.apart⟩
  · show ∀ a ∈ sched.pages ++ s.live, _
    rw [hpages]
    exact h.taken
  · show (sched.pages ++ s.live).Nodup
    rw [hpages]
    exact h.nodup

/-- A process runs another one of its threads. -/
theorem Tables.setProcess (h : Tables s ns n) {p : ℤ} {r : ProcessRecord}
    (hthread : r.thread = (s.process p).thread) : Tables (s.setProcess p r) ns n := by
  have hsame : ∀ q, ((s.setProcess p r).process q).thread = (s.process q).thread := fun q => by
    by_cases hq : q = p
    · subst hq
      rw [Machine.setProcess_self, hthread]
    · rw [Machine.setProcess_ne r s hq]
  refine ⟨h.marks, h.taken, h.nodup, h.owned, ?_, ?_⟩
  · intro q h0 hq i hi
    rw [hsame] at hi ⊢
    exact h.record q h0 hq i hi
  · intro q hq0 hq q' hq0' hq' i j hi he
    rw [hsame] at hi
    rw [hsame, hsame] at he
    exact h.apart q hq0 hq q' hq0' hq' i j hi he

/-! ### The two halves of a switch -/

/-- The stack pointer is stored in the record of the running thread. -/
structure Saves (s t : Machine) (rsp : ℕ) : Prop where
  sched : t.sched = s.sched
  process : t.process = s.process
  live : t.live = s.live
  owned : t.owned = s.owned
  existed : s.activeRecord ∈ s.live
  stored : (t.record s.activeRecord).userStack = rsp

theorem saveStack_spec (h : Tables s ns n) (hactive : Active s n) (h0 : 0 ≤ s.pid) (hn : s.pid < n)
    (rsp : ℕ) : ∃ t, s.saveStack rsp = .ok t ∧ Tables t ns n ∧ Saves s t rsp := by
  have hrecord : s.activeRecord ≠ null := hactive s.pid h0 hn
  have hlive := (h.record s.pid h0 hn _ hrecord).1
  set t : Machine := { s with
    record := Function.update s.record s.activeRecord
      { s.record s.activeRecord with userStack := rsp }
    saved := Function.update s.saved s.pid
      (Function.update (s.saved s.pid) s.current.activeThread (some rsp)) } with ht
  have hstored : t.record s.activeRecord = { s.record s.activeRecord with userStack := rsp } :=
    Function.update_self ..
  refine ⟨t, if_pos hlive, ⟨h.marks, h.taken, h.nodup, h.owned, fun p hp0 hp i hi => ?_, h.apart⟩,
    rfl, rfl, rfl, rfl, hlive, by rw [hstored]⟩
  obtain ⟨hmem, hsaved⟩ := h.record p hp0 hp i hi
  refine ⟨hmem, ?_⟩
  show Function.update s.saved s.pid _ p i = some (t.record ((s.process p).thread i)).userStack
  by_cases hself : p = s.pid ∧ i = s.current.activeThread
  · obtain ⟨rfl, rfl⟩ := hself
    rw [Function.update_self, Function.update_self]
    exact congrArg (fun r => some r.userStack) hstored.symm
  · -- another thread has another record
    have hne : (s.process p).thread i ≠ s.activeRecord := fun he =>
      hself (h.apart p hp0 hp s.pid h0 hn i _ hi he)
    have hother : t.record ((s.process p).thread i) = s.record ((s.process p).thread i) :=
      Function.update_of_ne hne ..
    rw [hother, ← hsaved]
    by_cases hp : p = s.pid
    · subst hp
      rw [Function.update_self, Function.update_of_ne fun hi => hself ⟨rfl, hi⟩]
    · rw [Function.update_of_ne hp]

theorem loadStack_spec (h : Tables s ns n) (hactive : Active s n) (h0 : 0 ≤ s.pid)
    (hn : s.pid < n) : ∃ sp, s.loadStack = .ok (sp, s) ∧ s.activeRecord ∈ s.live ∧
      s.saved s.pid s.current.activeThread = some sp := by
  obtain ⟨hlive, hsaved⟩ := h.record s.pid h0 hn _ (hactive s.pid h0 hn)
  exact ⟨_, if_pos hlive, hlive, hsaved⟩

/-- The result of a switch: it does not come to an end, or the threads are as they should be. -/
def SwitchResult (s : Machine) (rsp : ℕ) (result : Except Fault (ℕ × Machine)) : Prop :=
  result = .error .hang ∨ ∃ sp t, result = .ok (sp, t) ∧ ThreadInvariant t ∧
    Switched s t rsp sp ∧ Keeps s t

/-- `sched` is the ring after the switch. -/
theorem nextProcess_spec (h : Tables s ns s.sched.pid) (hactive : Active s s.sched.pid)
    (h0 : 0 ≤ s.pid) (hn : s.pid < s.sched.pid) (hcurrent : s.sched.current ≠ null)
    (hring : ∀ sched, Scheduler.schedule s.sched = some sched → RingInvariant sched) (rsp : ℕ) :
    SwitchResult s rsp (s.nextProcess rsp) := by
  obtain ⟨t, hsave, ht, hsaves⟩ := saveStack_spec h hactive h0 hn rsp
  rw [Machine.nextProcess, if_neg hcurrent, hsave]
  show SwitchResult s rsp (t.schedule.bind Machine.loadStack)
  unfold Machine.schedule
  rw [hsaves.sched]
  cases hschedule : Scheduler.schedule s.sched with
  | none => exact Or.inl rfl
  | some sched =>
    right
    obtain ⟨hpages, hpid⟩ := schedule_pages hschedule
    have hinv : ThreadInvariant { t with sched } := by
      refine ⟨hring sched hschedule, ⟨ns, ?_⟩, ?_⟩
      · show Tables { t with sched } ns sched.pid
        rw [hpid]
        exact ht.of_sched (by rw [hpages, hsaves.sched])
      · show ∀ p, 0 ≤ p → p < sched.pid → (t.process p).thread (t.process p).activeThread ≠ null
        rw [hpid, hsaves.process]
        exact hactive
    obtain ⟨ns', htables⟩ := hinv.tables
    obtain ⟨hc0, hcn⟩ := hinv.pid_range
    obtain ⟨sp, hload, hlive, hsaved⟩ := loadStack_spec htables hinv.active hc0 hcn
    exact ⟨sp, _, hload, hinv, ⟨hsaves.existed, hsaves.stored, hlive, hsaved⟩,
      Keeps.of_owned hsaves.owned⟩

theorem ThreadInvariant.nextProcess (h : ThreadInvariant s) (rsp : ℕ) :
    SwitchResult s rsp (s.nextProcess rsp) := by
  obtain ⟨ns, htables⟩ := h.tables
  obtain ⟨h0, hn⟩ := h.pid_range
  exact nextProcess_spec htables h.active h0 hn h.ring.current_ne_null
    (fun sched hsched => (h.ring.schedule hsched).1) rsp

/-- The timer rotates the threads of the process that goes on. -/
theorem ThreadInvariant.tick (h : ThreadInvariant s) (rsp : ℕ) :
    SwitchResult s rsp (s.tick rsp) := by
  obtain ⟨ns, htables⟩ := h.tables
  obtain ⟨h0, hn⟩ := h.pid_range
  obtain ⟨t, hsave, ht, hsaves⟩ := saveStack_spec htables h.active h0 hn rsp
  unfold Machine.tick Machine.switchUserToKernel
  rw [hsave]
  show SwitchResult s rsp t.switchKernelToUser
  unfold Machine.switchKernelToUser Machine.schedule
  rw [hsaves.sched]
  cases hschedule : Scheduler.schedule s.sched with
  | none => exact Or.inl rfl
  | some sched =>
    obtain ⟨hpages, hpid⟩ := schedule_pages hschedule
    dsimp only [Except.bind]
    cases hnext : Machine.nextThread { t with sched } with
    | none => exact Or.inl rfl
    | some index =>
      right
      set v : Machine := { t with sched }
      have hv : Tables v ns s.sched.pid := ht.of_sched (by rw [hpages, hsaves.sched])
      have hindex : v.current.thread index ≠ null := by
        have := List.find?_some hnext
        simpa using this
      set w := v.setProcess v.pid { v.current with activeThread := index }
      have hcurrent : w.current = { v.current with activeThread := index } :=
        Machine.setProcess_self ..
      have hinv : ThreadInvariant w := by
        refine ⟨(h.ring.schedule hschedule).1, ⟨ns, ?_⟩, fun p hp0 hp => ?_⟩
        · show Tables w ns sched.pid
          rw [hpid]
          exact hv.setProcess rfl
        · have hp : p < s.sched.pid := by rwa [← hpid]
          by_cases hself : p = v.pid
          · subst hself
            rw [Machine.setProcess_self]
            exact hindex
          · rw [Machine.setProcess_ne _ _ hself]
            show (t.process p).thread (t.process p).activeThread ≠ null
            rw [hsaves.process]
            exact h.active p hp0 hp
      obtain ⟨ns', hw⟩ := hinv.tables
      obtain ⟨hc0, hcn⟩ := hinv.pid_range
      obtain ⟨sp, hload, hlive, hsaved⟩ := loadStack_spec hw hinv.active hc0 hcn
      exact ⟨sp, w, hload, hinv, ⟨hsaves.existed, hsaves.stored, hlive, hsaved⟩,
        Keeps.of_owned hsaves.owned⟩

/-! ### What an action does -/

/-- No record is missing, and what was acquired and each switch are as they should be. -/
structure Result (s : Machine) (stack : Option ℕ) (result : Except Fault (Option ℕ × Machine)) :
    Prop where
  noFault : result ≠ .error .record
  next : ∀ o t, result = .ok (o, t) → ThreadInvariant t ∧ Keeps s t ∧
    ∀ sp, o = some sp → ∃ rsp, stack = some rsp ∧ Switched s t rsp sp

theorem SwitchResult.result {result : Except Fault (ℕ × Machine)} (h : SwitchResult s rsp result) :
    Result s (some rsp) (result.map fun r => (some r.1, r.2)) := by
  rcases h with rfl | ⟨sp, t, rfl, ht, hswitched, hkeeps⟩
  · exact ⟨by simp [Except.map], fun o t he => nomatch he⟩
  · refine ⟨by simp [Except.map], fun o u he => ?_⟩
    obtain ⟨rfl, rfl⟩ := Prod.mk.inj (Except.ok.inj he)
    exact ⟨ht, hkeeps, fun sp' hsp => ⟨rsp, rfl, Option.some.inj hsp ▸ hswitched⟩⟩

/-- An action without a switch. -/
theorem Result.of_none (ht : ThreadInvariant t) (hkeeps : Keeps s t) (stack : Option ℕ) :
    Result s stack (.ok (none, t)) := by
  refine ⟨by simp, fun o u he => ?_⟩
  obtain ⟨rfl, rfl⟩ := Prod.mk.inj (Except.ok.inj he)
  exact ⟨ht, hkeeps, fun sp hsp => nomatch hsp⟩

theorem ThreadInvariant.of_sched (h : ThreadInvariant s) {sched : State} (hring : RingInvariant sched)
    (hpages : sched.pages = s.sched.pages) (hpid : sched.pid = s.sched.pid) :
    ThreadInvariant { s with sched } := by
  obtain ⟨ns, htables⟩ := h.tables
  refine ⟨hring, ⟨ns, ?_⟩, ?_⟩
  · show Tables { s with sched } ns sched.pid
    rw [hpid]
    exact htables.of_sched hpages
  · show ∀ p, 0 ≤ p → p < sched.pid → (s.process p).thread (s.process p).activeThread ≠ null
    rw [hpid]
    exact h.active

theorem ThreadInvariant.setProcess (h : ThreadInvariant s) {p : ℤ} {r : ProcessRecord}
    (hthread : r.thread = (s.process p).thread)
    (hactive : r.activeThread = (s.process p).activeThread) :
    ThreadInvariant (s.setProcess p r) := by
  obtain ⟨ns, htables⟩ := h.tables
  refine ⟨h.ring, ⟨ns, htables.setProcess hthread⟩, fun q h0 hq => ?_⟩
  by_cases hself : q = p
  · subst hself
    rw [Machine.setProcess_self, hthread, hactive]
    exact h.active q h0 hq
  · rw [Machine.setProcess_ne r s hself]
    exact h.active q h0 hq

/-- A process that removes itself gives up the processor for ever. -/
theorem ThreadInvariant.removeProcess (h : ThreadInvariant s) (pid : ℤ) (rsp : ℕ) :
    Result s (some rsp) (s.removeProcess pid rsp) := by
  unfold Machine.removeProcess
  by_cases hpid : pid = 0
  · rw [if_pos hpid]
    exact (h.nextProcess rsp).result
  rw [if_neg hpid, if_neg h.ring.current_ne_null, if_neg (h.ring.not_single hpid)]
  have hrun := removeProcess_eq h.ring hpid
  split
  · exact Result.of_none h (Keeps.refl s) _
  · next p x hfind =>
    rw [hfind] at hrun
    dsimp only at hrun ⊢
    have htest : eqProcess ((s.sched.unlink p x).processOf x)
        ((s.sched.unlink p x).processOf (s.sched.unlink p x).current) =
          decide ((s.sched.processOf x).pid = getCurrentPid s.sched) := by
      rw [unlink_processOf, getCurrentPid_eq h.ring]
      rfl
    rw [htest]
    by_cases hself : (s.sched.processOf x).pid = getCurrentPid s.sched
    · rw [if_pos hself] at hrun
      rw [if_pos (decide_eq_true hself)]
      have hcurrent : (s.sched.unlink p x).current ≠ null := h.ring.current_ne_null
      rw [Scheduler.yield, if_neg hcurrent] at hrun
      set v : Machine := { s with sched := s.sched.unlink p x }
      have hvpid : v.pid = s.pid := getCurrentPid_unlink s.sched p x
      obtain ⟨ns, htables⟩ := h.tables
      obtain ⟨h0, hn⟩ := h.pid_range
      have hv : Tables v ns v.sched.pid := htables.of_sched rfl
      have hresult := nextProcess_spec hv h.active (by rwa [hvpid]) (by rw [hvpid]; exact hn)
        hcurrent (fun sched hsched => IPC.ring_removeProcess h.ring (hrun.trans hsched)) rsp
      have hsame : v.activeRecord = s.activeRecord := by
        rw [Machine.activeRecord, Machine.current, hvpid]
        rfl
      rcases hresult with hhang | ⟨sp, t, hok, ht, hswitched, hkeeps⟩
      · exact SwitchResult.result (Or.inl hhang)
      · refine SwitchResult.result (Or.inr ⟨sp, t, hok, ht, ⟨?_, ?_, hswitched.live,
          hswitched.resumed⟩, hkeeps⟩)
        · rw [← hsame]
          exact hswitched.existed
        · rw [← hsame]
          exact hswitched.stored
    · rw [if_neg hself] at hrun
      rw [if_neg (by simpa using hself)]
      exact Result.of_none (h.of_sched (IPC.ring_removeProcess h.ring hrun) rfl rfl)
        (Keeps.refl s) _

/-! ### The end of a thread -/

theorem deallocPage_cases (page : ℕ) (s : Machine) : s.deallocPage page = .error .record ∨
    ∃ t, s.deallocPage page = .ok t ∧ t.sched = s.sched ∧ t.process = s.process ∧
      t.live = s.live := by
  unfold Machine.deallocPage
  split
  · exact Or.inl rfl
  · exact Or.inr ⟨_, rfl, rfl, rfl, rfl⟩

theorem freeThreadPages_cases (page : ℕ) (s : Machine) :
    s.freeThreadPages page = .error .record ∨
    ∃ t, s.freeThreadPages page = .ok t ∧ t.sched = s.sched ∧ t.process = s.process ∧
      ∀ a ∈ t.live, a ∈ s.live := by
  unfold Machine.freeThreadPages Machine.freeStacks
  split_ifs with hlive
  · rcases deallocPage_cases (s.record page).userStack s with hf | ⟨s₁, h₁, hs₁, hp₁, hl₁⟩
    · rw [hf]
      exact Or.inl rfl
    rw [h₁]
    simp only [Except.bind]
    rcases deallocPage_cases (s₁.record page).kernelStack s₁ with hf | ⟨s₂, h₂, hs₂, hp₂, hl₂⟩
    · rw [hf]
      exact Or.inl rfl
    rw [h₂]
    dsimp only
    rcases deallocPage_cases page s₂ with hf | ⟨s₃, h₃, hs₃, hp₃, hl₃⟩
    · rw [hf]
      exact Or.inl rfl
    rw [h₃]
    refine Or.inr ⟨_, rfl, hs₃.trans (hs₂.trans hs₁), hp₃.trans (hp₂.trans hp₁), fun a ha => ?_⟩
    have ha := List.mem_of_mem_erase ha
    rwa [hl₃, hl₂, hl₁] at ha
  · exact Or.inl rfl

/-- The switch behind the end of another thread than the first one finds no record. -/
theorem ThreadInvariant.terminateThread (h : ThreadInvariant s) (how : Switch)
    (hactive : s.current.activeThread ≠ 0) (rsp : ℕ) :
    s.terminateThread how rsp = .error .record := by
  unfold Machine.terminateThread
  rw [if_neg hactive]
  rcases freeThreadPages_cases s.activeRecord s with hf | ⟨t, ht, hsched, hprocess, hlive⟩
  · rw [hf]
    rfl
  rw [ht]
  simp only [Except.bind]
  set v := t.setProcess t.pid { s.current with
    thread := Function.update s.current.thread s.current.activeThread null
    numberOfThreads := s.current.numberOfThreads - 1 } with hv
  have hnull : v.activeRecord = null := by
    have hcurrent : v.current = { s.current with
        thread := Function.update s.current.thread s.current.activeThread null
        numberOfThreads := s.current.numberOfThreads - 1 } := Machine.setProcess_self ..
    rw [Machine.activeRecord, hcurrent]
    exact Function.update_self ..
  have hsave : v.saveStack rsp = .error .record := by
    refine if_neg ?_
    rw [hnull]
    intro hmem
    obtain ⟨ns, htables⟩ := h.tables
    obtain ⟨x, hx, hbase⟩ := htables.taken null (List.mem_append_right _ (hlive null hmem))
    exact (nodeBase_isPage (htables.marks.node x hx)).ne_null hbase
  have hcurrent : v.sched.current ≠ null := by
    rw [show v.sched = s.sched from hsched]
    exact h.ring.current_ne_null
  cases how with
  | tick =>
    show (v.tick rsp).map _ = _
    rw [Machine.tick, Machine.switchUserToKernel, hsave]
    rfl
  | yield =>
    show (v.nextProcess rsp).map _ = _
    rw [Machine.nextProcess, if_neg hcurrent, hsave]
    rfl

/-! ### Creating -/

theorem ThreadInvariant.createThread (h : ThreadInvariant s) (entryPoint : ℕ) :
    (s.createThread entryPoint s.pid = .error .record ∧ ¬ ProvidesThread s.pid s) ∨
    ∃ t, s.createThread entryPoint s.pid = .ok t ∧ ProvidesThread s.pid s ∧ ThreadInvariant t ∧
      Keeps s t := by
  obtain ⟨ns, htables⟩ := h.tables
  rcases createThread_spec htables entryPoint s.pid with hfault | ⟨t, ns', hrun, hp, ht, hkept⟩
  · exact Or.inl hfault
  refine Or.inr ⟨t, hrun, hp, ⟨hkept.sched ▸ h.ring, ⟨ns', ?_⟩, fun p h0 hn => ?_⟩, hkept.keeps⟩
  · rw [hkept.sched]
    exact ht
  · rw [hkept.sched] at hn
    have hold := h.active p h0 hn
    by_cases hself : p = s.pid
    · subst hself
      rw [hkept.activeThread, hkept.thread _ hold]
      exact hold
    · rw [hkept.process p hself]
      exact hold

theorem ThreadInvariant.createProcess (h : ThreadInvariant s) (entryPoint : ℕ) :
    (s.createProcess entryPoint = .error .record ∧ ¬ ProvidesProcess s) ∨
    ∃ t, s.createProcess entryPoint = .ok t ∧ ProvidesProcess s ∧ ThreadInvariant t ∧
      Keeps s t ∧ t.owned s.sched.pid ≠ [] := by
  obtain ⟨ns, htables⟩ := h.tables
  rcases createProcess_spec htables h.active entryPoint with hfault |
    ⟨t, ns', slot, hrun, hp, ht, hactive, hsched, hfresh, hkeeps, howned⟩
  · exact Or.inl hfault
  have hpid : t.sched.pid = s.sched.pid + 1 := by
    rw [hsched]
    exact pid_createProcess h.ring hfresh
  refine Or.inr ⟨t, hrun, hp, ⟨?_, ⟨ns', hpid ▸ ht⟩, hpid ▸ hactive⟩, hkeeps, howned⟩
  rw [hsched]
  exact (h.ring.createProcess hfresh).1

theorem ThreadInvariant.allocPage (h : ThreadInvariant s) (owner : ℤ) (pages : ℕ) :
    ThreadInvariant (s.allocPage owner pages).2 ∧ Keeps s (s.allocPage owner pages).2 := by
  obtain ⟨ns, htables⟩ := h.tables
  obtain ⟨ns', ht, hgrown, hkeeps, -⟩ := allocPage_spec htables (Prod.mk.eta.symm)
  refine ⟨⟨?_, ⟨ns', ?_⟩, ?_⟩, hkeeps⟩
  · rw [hgrown.sched]
    exact h.ring
  · rw [hgrown.sched]
    exact ht
  · rw [Active, hgrown.sched, hgrown.process]
    exact h.active

theorem ThreadInvariant.addPagesToProcess (h : ThreadInvariant s) (pageBase : ℕ) (pid : ℤ) :
    ThreadInvariant (s.addPagesToProcess pageBase pid) ∧
      (s.addPagesToProcess pageBase pid).owned = s.owned := by
  unfold Machine.addPagesToProcess
  dsimp only
  split_ifs
  · exact ⟨h, rfl⟩
  · exact ⟨h.setProcess rfl rfl, rfl⟩

theorem ThreadInvariant.extendHeap (h : ThreadInvariant s) (size : ℕ) (pid : ℤ)
    (stack : Option ℕ) : Result s stack ((s.extendHeap size pid).map fun s => (none, s)) := by
  unfold Machine.extendHeap
  dsimp only
  obtain ⟨ht, hkeeps⟩ := h.allocPage s.pid (Machine.heapPages size)
  generalize s.allocPage s.pid (Machine.heapPages size) = r at ht hkeeps ⊢
  obtain ⟨baseHeap, t⟩ := r
  dsimp only at ht hkeeps ⊢
  have hrecord : ∀ u : Machine, ThreadInvariant u → u.owned = t.owned →
      Result s stack (.ok (none, u.addPagesToProcess baseHeap pid)) := fun u hu howned => by
    obtain ⟨hinv, hsame⟩ := hu.addPagesToProcess baseHeap pid
    exact Result.of_none hinv (hkeeps.trans (Keeps.of_owned (hsame.trans howned))) stack
  by_cases hnull : baseHeap = null
  · rw [if_pos hnull]
    exact ⟨by simp [Except.map], fun o t he => nomatch he⟩
  · rw [if_neg hnull]
    by_cases hheap : t.current.heap = null
    · rw [if_pos hheap]
      exact hrecord _ (ht.setProcess rfl rfl) rfl
    · rw [if_neg hheap]
      exact hrecord t ht rfl

theorem ThreadInvariant.changeProcessState (h : ThreadInvariant s) (pid : ℤ)
    (state : ProcessState) :
    ThreadInvariant { s with sched := Scheduler.changeProcessState pid state s.sched } := by
  refine h.of_sched (changeProcessState_spec h.ring pid state).1 ?_
    (pid_changeProcessState h.ring pid state)
  rcases changeProcessState_cases h.ring.isRing pid state with ⟨x, -, -, hrun⟩ | ⟨-, hrun⟩
  · rw [hrun]
    rfl
  · rw [hrun]

/-! ### Runs -/

/-- The stack pointer of the running thread, when it may be suspended. -/
def Action.stack : Action → Option ℕ
  | .switch _ rsp => some rsp
  | .terminateThread _ rsp => some rsp
  | .removeProcess _ rsp => some rsp
  | _ => none

/-- Only the first thread of a process ends, and new threads and processes get their records. -/
def RecordsLast (s : Machine) : Action → Prop
  | .terminateThread _ _ => s.current.activeThread = 0
  | .createThread _ => ProvidesThread s.pid s
  | .createProcess _ => ProvidesProcess s
  | _ => True

/-- No missing record is read or written, and when the action switches, the stack pointer is stored
in a record of the process that ran and the thread that runs has its own. -/
def SwitchSound (s : Machine) (a : Action) : Prop :=
  perform s a ≠ .error .record ∧ ∀ sp t, perform s a = .ok (some sp, t) →
    ∃ rsp, a.stack = some rsp ∧ Switched s t rsp sp

/-- What an action does: either its condition fails and it follows `NULL`, or all is well. -/
theorem ThreadInvariant.perform (h : ThreadInvariant s) (a : Action) :
    (¬ RecordsLast s a ∧ perform s a = .error .record) ∨
      (RecordsLast s a ∧ Result s a.stack (perform s a)) := by
  cases a with
  | switch how rsp =>
    right
    cases how with
    | tick => exact ⟨trivial, (h.tick rsp).result⟩
    | yield => exact ⟨trivial, (h.nextProcess rsp).result⟩
  | createProcess entryPoint =>
    rcases h.createProcess entryPoint with ⟨hrun, hnot⟩ | ⟨t, hrun, hprovides, ht, hkeeps, -⟩
    · refine Or.inl ⟨hnot, ?_⟩
      rw [Threads.perform, hrun]
      rfl
    · refine Or.inr ⟨hprovides, ?_⟩
      rw [Threads.perform, hrun]
      exact Result.of_none ht hkeeps _
  | createThread entryPoint =>
    rcases h.createThread entryPoint with ⟨hrun, hnot⟩ | ⟨t, hrun, hprovides, ht, hkeeps⟩
    · refine Or.inl ⟨hnot, ?_⟩
      rw [Threads.perform, hrun]
      rfl
    · refine Or.inr ⟨hprovides, ?_⟩
      rw [Threads.perform, hrun]
      exact Result.of_none ht hkeeps _
  | terminateThread how rsp =>
    by_cases hactive : s.current.activeThread = 0
    · refine Or.inr ⟨hactive, ?_⟩
      show Result s (some rsp) (s.terminateThread how rsp)
      rw [Machine.terminateThread, if_pos hactive]
      exact h.removeProcess s.pid rsp
    · exact Or.inl ⟨hactive, h.terminateThread how hactive rsp⟩
  | removeProcess pid rsp => exact Or.inr ⟨trivial, h.removeProcess pid rsp⟩
  | changeProcessState pid state =>
    have hkeeps : Keeps s { s with sched := Scheduler.changeProcessState pid state s.sched } :=
      Keeps.of_owned rfl
    exact Or.inr ⟨trivial, Result.of_none (h.changeProcessState pid state) hkeeps _⟩
  | extendHeap size pid => exact Or.inr ⟨trivial, h.extendHeap size pid _⟩
  | allocPage pages =>
    obtain ⟨ht, hkeeps⟩ := h.allocPage kernelOwner pages
    exact Or.inr ⟨trivial, Result.of_none ht hkeeps _⟩

theorem step_eq_some {a : Action} (h : step s a = some t) : ∃ o, perform s a = .ok (o, t) := by
  unfold step at h
  split at h
  · next r hrun =>
    obtain rfl := Option.some.inj h
    exact ⟨r.1, hrun⟩
  · exact absurd h (by simp)

theorem step_threadInvariant {a : Action} (h : ThreadInvariant s) (hstep : step s a = some t) :
    ThreadInvariant t ∧ Keeps s t := by
  obtain ⟨o, hrun⟩ := step_eq_some hstep
  rcases h.perform a with ⟨-, hfault⟩ | ⟨-, hresult⟩
  · exact absurd (hfault.symm.trans hrun) (by simp)
  · obtain ⟨ht, hkeeps, -⟩ := hresult.next o t hrun
    exact ⟨ht, hkeeps⟩

theorem tables_empty (slot : ℕ → ProcessSlot) (process : ℤ → ProcessRecord)
    (record : ℕ → Thread) : Tables (empty slot process record) [] 0 := by
  refine ⟨invariant_createHeap, ?_, List.nodup_nil, ?_, ?_, ?_⟩
  · exact fun a ha => absurd ha List.not_mem_nil
  · exact fun p blk hb => absurd hb List.not_mem_nil
  · exact fun p h0 hp => absurd hp (not_lt.mpr h0)
  · exact fun p h0 hp => absurd hp (not_lt.mpr h0)

theorem IsStart.threadInvariant (h : IsStart s) : ThreadInvariant s := by
  obtain ⟨slot, process, record, entryPoint, hrun⟩ := h
  rcases createProcess_spec (tables_empty slot process record)
    (fun p h0 hp => absurd hp (not_lt.mpr h0)) entryPoint with
      ⟨hfault, -⟩ | ⟨t, ns, page, ht, -, htables, hactive, hsched, hfresh, -, -⟩
  · rw [hfault] at hrun
    exact absurd hrun (by simp)
  obtain rfl := Except.ok.inj (ht.symm.trans hrun)
  have hpid : t.sched.pid = 1 := by
    rw [hsched, (createProcess_pages page _).2]
    rfl
  have hring : RingInvariant t.sched := by
    rw [hsched]
    exact (historyInvariant_start ⟨slot, page, hfresh.1, rfl⟩).ring
  exact ⟨hring, ⟨ns, hpid ▸ htables⟩, hpid ▸ hactive⟩

theorem reachable_threadInvariant (h : threadSystem.Reachable s) : ThreadInvariant s :=
  h.invariant (I := ThreadInvariant) (fun _ hs => IsStart.threadInvariant hs)
    fun s a t hs hstep => (step_threadInvariant hs (show step s a = some t from hstep)).1

/-- In every reachable state the actions that switch as they should are exactly those that do not
end another thread than the first one and get their records. -/
theorem switch_sound_iff (h : threadSystem.Reachable s) (a : Action) :
    SwitchSound s a ↔ RecordsLast s a := by
  rcases (reachable_threadInvariant h).perform a with ⟨hnot, hfault⟩ | ⟨hlast, hresult⟩
  · exact iff_of_false (fun hsound => hsound.1 hfault) hnot
  · refine iff_of_true ⟨hresult.noFault, fun sp t hrun => ?_⟩ hlast
    exact (hresult.next _ t hrun).2.2 sp rfl

end

/-! ### Concrete runs -/

variable {α : Type*}

/-- The memory is zero before the init process is created. -/
def zeroMachine : Machine := empty emptySlots (fun _ => ⟨0, 0, 0, fun _ => 0, 0, 0, fun _ => 0⟩)
  fun _ => ⟨0, 0, 0⟩

theorem ok_of_any {r : Except Fault α} {f : α → Bool} (h : r.toOption.any f = true) :
    ∃ a, r = .ok a ∧ f a = true := by
  cases r with
  | error fault => exact absurd h (by simp [Except.toOption])
  | ok a => exact ⟨a, rfl, by simpa [Except.toOption] using h⟩

/-- The init process starts at address 1. -/
theorem exists_start : ∃ s, IsStart s := by
  have hok : (zeroMachine.createProcess 1).toOption.any (fun _ => true) = true := by
    rw [zeroMachine, empty, createHeap_eq]
    decide +kernel
  obtain ⟨s, hrun, -⟩ := ok_of_any hok
  exact ⟨s, _, _, _, 1, hrun⟩

/-- The first tick of the timer. -/
theorem switch_sound_tick : ∃ s, threadSystem.Reachable s ∧ SwitchSound s (.switch .tick 5) := by
  obtain ⟨s, hs⟩ := exists_start
  exact ⟨s, System.Reachable.start hs,
    (switch_sound_iff (System.Reachable.start hs) (.switch .tick 5)).mpr trivial⟩

def isRecordFault : Except Fault α → Bool
  | .error fault => fault = .record
  | .ok _ => false

/-- The shell starts at address 2 and creates a thread, and two ticks later that thread runs and
ends. -/
theorem switch_not_sound : ∃ s, threadSystem.Reachable s ∧
    perform s (.terminateThread .yield 5) = .error .record ∧
      ¬ SwitchSound s (.terminateThread .yield 5) := by
  let as : List Action :=
    [.createProcess 2, .switch .tick 5, .createThread 7, .switch .tick 6, .switch .tick 8]
  have hrun : ((zeroMachine.createProcess 1).toOption.any fun s => (execute step s as).any fun t =>
      isRecordFault (perform t (.terminateThread .yield 5))) = true := by
    rw [zeroMachine, empty, createHeap_eq]
    decide +kernel
  obtain ⟨s, hstart, hrun⟩ := ok_of_any hrun
  obtain ⟨t, ht, hfault⟩ := (Option.any_eq_true _ _).mp hrun
  have hrecord : perform t (.terminateThread .yield 5) = .error .record := by
    cases hperform : perform t (.terminateThread .yield 5) with
    | ok r => simp [hperform, isRecordFault] at hfault
    | error fault => simpa [hperform, isRecordFault] using hfault
  have hs : IsStart s := ⟨_, _, _, 1, hstart⟩
  exact ⟨t, reachable_of_execute IsStart hs ht, hrecord, fun hsound => hsound.1 hrecord⟩

end GatOS.Threads
