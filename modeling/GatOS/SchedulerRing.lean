import Mathlib.Data.List.Perm.Subperm
import GatOS.LinkedRing
import GatOS.Scheduler
import GatOS.Transition

/-!
# The ring of processes

The slots reached from `current` form a ring. Each operation of the scheduler is described by
what it does to the list of the processes, the current one first.
-/
namespace GatOS.Scheduler
open BuddyAllocator LinkedRing Transition

/-- A page of the heap of the kernel. -/
def IsPage (a : ℕ) : Prop :=
  baseMemory ≤ a ∧ (a - baseMemory) / pageSize < numberOfPages ∧ (a - baseMemory) % pageSize = 0

instance (a : ℕ) : Decidable (IsPage a) := inferInstanceAs (Decidable (_ ∧ _))

structure RingInvariant (s : State) : Prop where
  isRing : IsRing s.nextOf s.current (ring s)
  slots : ∀ a ∈ ring s, a ∈ s.pages
  isPage : ∀ a ∈ s.pages, IsPage a
  pages_nodup : s.pages.Nodup
  pid_eq : s.pid = s.pages.length
  pid_range : ∀ p ∈ pids s, 0 ≤ p ∧ p < s.pid
  pids_nodup : (pids s).Nodup
  init : initPid ∈ pids s

/-- As many processes as `cardinal_processes` says, with different numbers, and the init process
among them. -/
structure WellFormedRing (s : State) : Prop where
  isRing : IsRing s.nextOf s.current (ring s)
  null_notMem : null ∉ ring s
  pids_nodup : (pids s).Nodup
  init : initPid ∈ pids s

/-! ### Slots in memory -/

section Slots

variable (s : State) (a b : ℕ) (state : ProcessState)

@[simp] theorem setState_nextOf : (s.setState a state).nextOf = s.nextOf := by
  funext b
  by_cases h : b = a <;> simp [State.setState, State.setSlot, State.nextOf, h]

@[simp] theorem setState_processOf_self :
    (s.setState a state).processOf a = { s.processOf a with state := state } := by
  simp [State.setState, State.setSlot, State.processOf]

theorem setState_processOf_ne {a b : ℕ} (h : b ≠ a) :
    (s.setState a state).processOf b = s.processOf b := by
  simp [State.setState, State.setSlot, State.processOf, h]

@[simp] theorem setState_processOf_pid :
    ((s.setState a state).processOf b).pid = (s.processOf b).pid := by
  by_cases h : b = a <;> simp [State.setState, State.setSlot, State.processOf, h]

@[simp] theorem setState_current : (s.setState a state).current = s.current := rfl

@[simp] theorem setState_cardinalProcesses :
    (s.setState a state).cardinalProcesses = s.cardinalProcesses := rfl

@[simp] theorem setState_pid : (s.setState a state).pid = s.pid := rfl

@[simp] theorem setState_pages : (s.setState a state).pages = s.pages := rfl

@[simp] theorem setNext_processOf (n : ℕ) : (s.setNext a n).processOf = s.processOf := by
  funext b
  by_cases h : b = a <;> simp [State.setNext, State.setSlot, State.processOf, h]

@[simp] theorem setNext_nextOf_self (n : ℕ) : (s.setNext a n).nextOf a = n := by
  simp [State.setNext, State.setSlot, State.nextOf]

theorem setNext_nextOf_ne {a b : ℕ} (n : ℕ) (h : b ≠ a) :
    (s.setNext a n).nextOf b = s.nextOf b := by
  simp [State.setNext, State.setSlot, State.nextOf, h]

@[simp] theorem setNext_current (n : ℕ) : (s.setNext a n).current = s.current := rfl

@[simp] theorem setNext_cardinalProcesses (n : ℕ) :
    (s.setNext a n).cardinalProcesses = s.cardinalProcesses := rfl

end Slots

@[simp] theorem length_ring (s : State) : (ring s).length = s.cardinalProcesses :=
  List.length_iterate _ _ _

theorem ring_eq {s : State} {l : List ℕ} (h : IsRing s.nextOf s.current l)
    (hlen : l.length = s.cardinalProcesses) : ring s = l := by
  rw [ring, ← hlen, ← h.chain.eq_iterate]

theorem RingInvariant.exists_cons {s : State} (h : RingInvariant s) :
    ∃ l, ring s = s.current :: l :=
  h.isRing.eq_cons

/-- A search that starts behind the current process comes to that process last. -/
theorem RingInvariant.round {s : State} (h : RingInvariant s) {l : List ℕ}
    (hl : ring s = s.current :: l) : IsRing s.nextOf s.current (s.current :: l) ∧
      (l ++ [s.current]).Nodup ∧ (l ++ [s.current]).length = s.cardinalProcesses := by
  have hring := h.isRing
  rw [hl] at hring
  refine ⟨hring, List.nodup_append_comm.mp hring.nodup, ?_⟩
  rw [← length_ring, hl]
  simp

theorem RingInvariant.current_mem {s : State} (h : RingInvariant s) : s.current ∈ ring s := by
  obtain ⟨l, hl⟩ := h.exists_cons
  rw [hl]
  exact List.mem_cons_self

theorem IsPage.ne_null {a : ℕ} (h : IsPage a) : a ≠ null := by
  have h1 := h.1
  have : 0 < baseMemory := by decide
  unfold null
  omega

theorem RingInvariant.current_ne_null {s : State} (h : RingInvariant s) : s.current ≠ null :=
  (h.isPage _ (h.slots _ h.current_mem)).ne_null

theorem RingInvariant.null_notMem {s : State} (h : RingInvariant s) : null ∉ ring s := fun hmem =>
  (h.isPage _ (h.slots _ hmem)).ne_null rfl

theorem length_le_numberOfPages {l : List ℕ} (hp : ∀ a ∈ l, IsPage a) (hn : l.Nodup) :
    l.length ≤ numberOfPages := by
  have hsub : l ⊆ (List.range numberOfPages).map fun i => baseMemory + pageSize * i := by
    intro a ha
    obtain ⟨h1, h2, h3⟩ := hp a ha
    refine List.mem_map.mpr ⟨_, List.mem_range.mpr h2, ?_⟩
    have := Nat.div_add_mod (a - baseMemory) pageSize
    rw [h3, Nat.add_zero] at this
    rw [this, Nat.add_sub_cancel' h1]
  have := (List.subperm_of_subset hn hsub).length_le
  simpa using this

/-- There are no more processes than pages, so the numbers of the processes do not overflow. -/
theorem RingInvariant.pid_le {s : State} (h : RingInvariant s) : s.pid ≤ numberOfPages := by
  rw [h.pid_eq]
  exact_mod_cast length_le_numberOfPages h.isPage h.pages_nodup

theorem getCurrentPid_eq {s : State} (h : RingInvariant s) :
    getCurrentPid s = (s.processOf s.current).pid :=
  if_neg h.current_ne_null

theorem getCurrentPid_mem {s : State} (h : RingInvariant s) : getCurrentPid s ∈ pids s := by
  rw [getCurrentPid_eq h, pids, processes, List.map_map]
  exact List.mem_map_of_mem (f := Process.pid ∘ s.processOf) h.current_mem

theorem RingInvariant.wellFormedRing {s : State} (h : RingInvariant s) : WellFormedRing s :=
  ⟨h.isRing, h.null_notMem, h.pids_nodup, h.init⟩

theorem WellFormedRing.current_ne_null {s : State} (h : WellFormedRing s) : s.current ≠ null := by
  obtain ⟨l, hl⟩ := h.isRing.eq_cons
  intro hnull
  apply h.null_notMem
  rw [hl, hnull]
  exact List.mem_cons_self

/-- Two slots of the ring with one number are one slot. -/
theorem WellFormedRing.slot_eq {s : State} (h : WellFormedRing s) {a b : ℕ} (ha : a ∈ ring s)
    (hb : b ∈ ring s) (hp : (s.processOf a).pid = (s.processOf b).pid) : a = b := by
  have hn := h.pids_nodup
  rw [pids, processes, List.map_map] at hn
  exact List.inj_on_of_nodup_map hn ha hb hp

theorem RingInvariant.slot_eq {s : State} (h : RingInvariant s) {a b : ℕ} (ha : a ∈ ring s)
    (hb : b ∈ ring s) (hp : (s.processOf a).pid = (s.processOf b).pid) : a = b :=
  h.wellFormedRing.slot_eq ha hb hp

/-- The states of the processes do not matter for the ring. -/
theorem RingInvariant.congr {s t : State} (h : RingInvariant s) (hnext : t.nextOf = s.nextOf)
    (hcurrent : t.current = s.current) (hcardinal : t.cardinalProcesses = s.cardinalProcesses)
    (hpid : t.pid = s.pid) (hpages : t.pages = s.pages)
    (hpids : ∀ a ∈ ring s, (t.processOf a).pid = (s.processOf a).pid) :
    RingInvariant t ∧ ring t = ring s ∧ pids t = pids s := by
  have hring : ring t = ring s := by rw [ring, hnext, hcurrent, hcardinal, ← ring]
  have hp : pids t = pids s := by
    rw [pids, processes, pids, processes, hring, List.map_map, List.map_map]
    exact List.map_congr_left hpids
  refine ⟨?_, hring, hp⟩
  obtain ⟨h1, h2, h3, h4, h5, h6, h7, h8⟩ := h
  rw [← hring, ← hnext, ← hcurrent] at h1
  rw [← hring, ← hpages] at h2
  rw [← hpages] at h3 h4 h5
  rw [← hp, ← hpid] at h6
  rw [← hp] at h7 h8
  rw [← hpid] at h5
  exact ⟨h1, h2, h3, h4, h5, h6, h7, h8⟩

/-- A ring through some of the slots, with the init process in it. -/
theorem RingInvariant.of_subset {s t : State} (h : RingInvariant s)
    (hring : IsRing t.nextOf t.current (ring t)) (hslots : ∀ a ∈ ring t, a ∈ ring s)
    (hpid : t.pid = s.pid) (hpages : t.pages = s.pages) (hpids : ∀ p ∈ pids t, p ∈ pids s)
    (hnodup : (pids t).Nodup) (hinit : initPid ∈ pids t) : RingInvariant t := by
  refine ⟨hring, fun a ha => ?_, ?_, ?_, ?_, fun p hp => ?_, hnodup, hinit⟩
  · rw [hpages]
    exact h.slots a (hslots a ha)
  · rw [hpages]
    exact h.isPage
  · rw [hpages]
    exact h.pages_nodup
  · rw [hpages, hpid]
    exact h.pid_eq
  · rw [hpid]
    exact h.pid_range p (hpids p hp)

theorem RingInvariant.setState {s : State} (h : RingInvariant s) (a : ℕ) (state : ProcessState) :
    RingInvariant (s.setState a state) ∧ ring (s.setState a state) = ring s ∧
      pids (s.setState a state) = pids s :=
  h.congr (by simp) rfl rfl rfl rfl (by simp)

/-! ### `changeProcessState` -/

theorem changeProcessStateLoop_cases {s : State} {a b : ℕ} {l : List ℕ}
    (h : Chain s.nextOf a l b) (pid : ℤ) (state : ProcessState) :
    (∃ x ∈ l, (s.processOf x).pid = pid ∧
      changeProcessStateLoop pid state l.length a s = s.setState x state) ∨
    ((∀ x ∈ l, (s.processOf x).pid ≠ pid) ∧
      changeProcessStateLoop pid state l.length a s = s) := by
  induction l generalizing a with
  | nil => exact Or.inr ⟨by simp, rfl⟩
  | cons x l ih =>
    obtain ⟨rfl, h⟩ := h
    simp only [List.length_cons, changeProcessStateLoop]
    by_cases hpid : (s.processOf a).pid = pid
    · exact Or.inl ⟨a, List.mem_cons_self, hpid, if_pos hpid⟩
    · rw [if_neg hpid]
      rcases ih h with ⟨x, hx, hp, ht⟩ | ⟨hnone, ht⟩
      · exact Or.inl ⟨x, List.mem_cons_of_mem a hx, hp, ht⟩
      · exact Or.inr ⟨List.forall_mem_cons.mpr ⟨hpid, hnone⟩, ht⟩

theorem changeProcessState_cases {s : State} (h : IsRing s.nextOf s.current (ring s)) (pid : ℤ)
    (state : ProcessState) :
    (∃ x ∈ ring s, (s.processOf x).pid = pid ∧
      changeProcessState pid state s = s.setState x state) ∨
    (pid ∉ pids s ∧ changeProcessState pid state s = s) := by
  have hcases := changeProcessStateLoop_cases h.chain pid state
  rw [length_ring] at hcases
  rcases hcases with hx | ⟨hnone, ht⟩
  · exact Or.inl hx
  · refine Or.inr ⟨fun hmem => ?_, ht⟩
    rw [pids, processes, List.map_map] at hmem
    obtain ⟨x, hx, hp⟩ := List.mem_map.mp hmem
    exact hnone x hx hp

/-- The number of a slot of the ring stands for this slot. -/
theorem RingInvariant.changeProcessState_slot {s : State} (h : RingInvariant s) {a : ℕ}
    (ha : a ∈ ring s) (state : ProcessState) :
    changeProcessState (s.processOf a).pid state s = s.setState a state := by
  rcases changeProcessState_cases h.isRing (s.processOf a).pid state with ⟨x, hx, hp, ht⟩ | ⟨hnone, -⟩
  · rw [ht, h.slot_eq hx ha hp]
  · refine absurd ?_ hnone
    rw [pids, processes, List.map_map]
    exact List.mem_map_of_mem (f := Process.pid ∘ s.processOf) ha

/-- The process `pid` goes to the given state, the others stay as they are. -/
def withState (pid : ℤ) (state : ProcessState) (p : Process) : Process :=
  if p.pid = pid then { p with state := state } else p

@[simp] theorem withState_pid (pid : ℤ) (state : ProcessState) (p : Process) :
    (withState pid state p).pid = p.pid := by
  unfold withState
  split_ifs <;> rfl

/-- Of a ring through the same slots. -/
theorem processes_setState {s : State} (h : WellFormedRing s) {x : ℕ} (hx : x ∈ ring s)
    (state : ProcessState) : ring (s.setState x state) = ring s ∧
      processes (s.setState x state) =
        (processes s).map (withState (s.processOf x).pid state) := by
  have hring : ring (s.setState x state) = ring s := by
    rw [ring, setState_nextOf]
    rfl
  refine ⟨hring, ?_⟩
  rw [processes, hring, processes, List.map_map]
  refine List.map_congr_left fun a ha => ?_
  rw [Function.comp_apply, withState]
  by_cases hax : a = x
  · subst hax
    rw [setState_processOf_self, if_pos rfl]
  · rw [setState_processOf_ne s state hax, if_neg fun hpa => hax (h.slot_eq ha hx hpa)]

theorem WellFormedRing.changeProcessState {s : State} (h : WellFormedRing s) (pid : ℤ)
    (state : ProcessState) :
    WellFormedRing (changeProcessState pid state s) ∧
      processes (changeProcessState pid state s) = (processes s).map (withState pid state) := by
  rcases changeProcessState_cases h.isRing pid state with ⟨x, hx, rfl, ht⟩ | ⟨hnone, ht⟩
  · obtain ⟨hring, hproc⟩ := processes_setState h hx state
    have hpids : pids (s.setState x state) = pids s := by
      rw [pids, hproc, List.map_map, pids]
      exact List.map_congr_left fun p _ => withState_pid _ state p
    rw [ht]
    refine ⟨⟨?_, by rw [hring]; exact h.null_notMem, by rw [hpids]; exact h.pids_nodup,
      by rw [hpids]; exact h.init⟩, hproc⟩
    rw [hring, setState_nextOf]
    exact h.isRing
  · rw [ht]
    have hid : ∀ p ∈ processes s, withState pid state p = id p := fun p hp =>
      if_neg fun he => hnone (List.mem_map.mpr ⟨p, hp, he⟩)
    refine ⟨h, ?_⟩
    rw [List.map_congr_left hid, List.map_id]

theorem changeProcessState_spec {s : State} (h : RingInvariant s) (pid : ℤ)
    (state : ProcessState) :
    RingInvariant (changeProcessState pid state s) ∧
      processes (changeProcessState pid state s) = (processes s).map (withState pid state) ∧
      getCurrentPid (changeProcessState pid state s) = getCurrentPid s := by
  have hproc := (h.wellFormedRing.changeProcessState pid state).2
  rcases changeProcessState_cases h.isRing pid state with ⟨x, -, -, ht⟩ | ⟨-, ht⟩
  · have hinv := (h.setState x state).1
    rw [ht] at hproc ⊢
    refine ⟨hinv, hproc, ?_⟩
    rw [getCurrentPid_eq hinv, getCurrentPid_eq h, setState_processOf_pid, setState_current]
  · rw [ht] at hproc ⊢
    exact ⟨h, hproc, rfl⟩

/-! ### `schedule` -/

theorem findReady_chain {s : State} {a b : ℕ} {l : List ℕ} (h : Chain s.nextOf a l b) :
    findReady s l.length a = l.find? fun x => (s.processOf x).state = .ready := by
  induction l generalizing a with
  | nil => rfl
  | cons x l ih =>
    obtain ⟨rfl, h⟩ := h
    simp only [List.length_cons, findReady, List.find?_cons]
    split_ifs with hr
    · simp [hr]
    · simp [hr, ih h]

/-- The running process becomes ready again. -/
def preempt (p : Process) : Process :=
  if p.state = .running then { p with state := .ready } else p

@[simp] theorem preempt_pid (p : Process) : (preempt p).pid = p.pid := by
  unfold preempt
  split_ifs <;> rfl

def State.preempted (s : State) : State :=
  if (s.processOf s.current).state = .running then s.setState s.current .ready else s

theorem preempted_nextOf (s : State) : s.preempted.nextOf = s.nextOf := by
  unfold State.preempted
  split_ifs
  · exact setState_nextOf ..
  · rfl

theorem preempted_current (s : State) : s.preempted.current = s.current := by
  unfold State.preempted
  split_ifs <;> rfl

theorem preempted_cardinalProcesses (s : State) :
    s.preempted.cardinalProcesses = s.cardinalProcesses := by
  unfold State.preempted
  split_ifs <;> rfl

theorem preempted_processOf (s : State) (a : ℕ) : s.preempted.processOf a =
    if a = s.current then preempt (s.processOf a) else s.processOf a := by
  unfold State.preempted preempt
  by_cases ha : a = s.current
  · subst ha
    by_cases hr : (s.processOf s.current).state = .running <;> simp [hr]
  · rw [if_neg ha]
    split_ifs
    · exact setState_processOf_ne _ _ ha
    · rfl

/-- `schedule` searches the slots that follow `current` and enters the ring at the first one
that is ready. -/
theorem schedule_chain {s t : State} {l : List ℕ}
    (h : Chain s.nextOf (s.nextOf s.current) l (s.nextOf s.current)) (hnodup : l.Nodup)
    (hlen : l.length = s.cardinalProcesses) (ht : schedule s = some t) :
    ∃ l₁ x l₂, l = l₁ ++ x :: l₂ ∧ (s.preempted.processOf x).state = .ready ∧
      t = { s.preempted with current := x }.setState x .running ∧
      IsRing t.nextOf t.current (x :: l₂ ++ l₁) ∧ ring t = x :: l₂ ++ l₁ := by
  have hchain : Chain s.preempted.nextOf (s.nextOf s.current) l (s.nextOf s.current) := by
    rwa [preempted_nextOf]
  have hfind := findReady_chain hchain
  have hrun : schedule s = (findReady s.preempted s.preempted.cardinalProcesses
      (s.preempted.nextOf s.preempted.current)).map fun slot =>
        { s.preempted with current := slot }.setState slot .running := rfl
  rw [hrun, preempted_cardinalProcesses, preempted_nextOf, preempted_current, ← hlen, hfind,
    Option.map_eq_some_iff] at ht
  obtain ⟨x, hx, rfl⟩ := ht
  obtain ⟨hready, l₁, l₂, rfl, -⟩ := List.find?_eq_some_iff_append.mp hx
  refine ⟨l₁, x, l₂, rfl, by simpa using hready, rfl, ?_⟩
  have hring : IsRing s.nextOf (s.nextOf s.current) (l₁ ++ x :: l₂) := ⟨h, by simp, hnodup⟩
  have hring' : IsRing ({ s.preempted with current := x }.setState x .running).nextOf x
      (x :: l₂ ++ l₁) := by
    rw [setState_nextOf]
    have := hring.rotate
    rwa [← preempted_nextOf] at this
  refine ⟨hring', ring_eq hring' ?_⟩
  rw [setState_cardinalProcesses]
  show (x :: l₂ ++ l₁).length = s.preempted.cardinalProcesses
  rw [preempted_cardinalProcesses, ← hlen]
  simp only [List.length_append, List.length_cons]
  omega

/-- What switching does to the list of the processes: the part from the first ready process on
comes first. -/
structure Dispatched (l m : List Process) : Prop where
  exists_split : ∃ l₁ p l₂, l = l₁ ++ p :: l₂ ∧ p.state = .ready ∧
    m = { p with state := .running } :: (l₂ ++ l₁)

theorem Dispatched.perm_pids {l m : List Process} (h : Dispatched l m) :
    (m.map Process.pid).Perm (l.map Process.pid) := by
  obtain ⟨l₁, p, l₂, rfl, -, rfl⟩ := h.exists_split
  simp only [List.map_cons, List.map_append]
  exact (List.perm_middle.trans ((List.perm_append_comm).cons _)).symm

/-- Switching concerns only processes that are ready or running. -/
theorem Dispatched.mem_iff {l m : List Process} (h : Dispatched l m) {q : Process}
    (hready : q.state ≠ .ready) (hrunning : q.state ≠ .running) : q ∈ m ↔ q ∈ l := by
  obtain ⟨l₁, p, l₂, rfl, hp, rfl⟩ := h.exists_split
  have hne : q ≠ p := by
    rintro rfl
    exact hready hp
  have hne' : q ≠ { p with state := .running } := by
    rintro rfl
    exact hrunning rfl
  simp [hne, hne', or_comm]

/-- After switching the ring is a ring of the same pages. -/
theorem schedule_dispatched {s t : State} {l : List ℕ}
    (h : Chain s.nextOf (s.nextOf s.current) l (s.nextOf s.current)) (hnodup : l.Nodup)
    (hlen : l.length = s.cardinalProcesses) (ht : schedule s = some t) :
    IsRing t.nextOf t.current (ring t) ∧ (∀ a ∈ ring t, a ∈ l) ∧ t.pid = s.pid ∧
      t.pages = s.pages ∧ t.cardinalProcesses = s.cardinalProcesses ∧
      Dispatched (l.map s.preempted.processOf) (processes t) := by
  obtain ⟨l₁, x, l₂, rfl, hready, rfl, hring, heq⟩ := schedule_chain h hnodup hlen ht
  have hpid : s.preempted.pid = s.pid := by
    unfold State.preempted
    split_ifs <;> rfl
  have hpages : s.preempted.pages = s.pages := by
    unfold State.preempted
    split_ifs <;> rfl
  refine ⟨by rwa [heq], fun a ha => ?_, hpid, hpages, preempted_cardinalProcesses s, ?_⟩
  · rw [heq] at ha
    simp only [List.mem_append, List.mem_cons] at ha ⊢
    tauto
  · refine ⟨l₁.map s.preempted.processOf, s.preempted.processOf x, l₂.map s.preempted.processOf,
      by simp, hready, ?_⟩
    have hx : x ∉ l₂ ++ l₁ := by
      have := hring.nodup
      rw [List.cons_append] at this
      exact (List.nodup_cons.mp this).1
    rw [processes, heq, List.cons_append, List.map_cons, setState_processOf_self,
      ← List.map_append]
    refine congrArg _ (List.map_congr_left fun a ha => ?_)
    rw [setState_processOf_ne]
    · rfl
    · rintro rfl
      exact hx ha

theorem processes_eq_cons {s : State} (h : RingInvariant s) :
    ∃ l, ring s = s.current :: l ∧
      processes s = s.processOf s.current :: l.map s.processOf := by
  obtain ⟨l, hl⟩ := h.exists_cons
  exact ⟨l, hl, by rw [processes, hl, List.map_cons]⟩

theorem RingInvariant.schedule {s t : State} (h : RingInvariant s) (ht : schedule s = some t) :
    RingInvariant t ∧ t.pid = s.pid ∧ ∃ c rest, processes s = c :: rest ∧
      Dispatched (rest ++ [preempt c]) (processes t) := by
  obtain ⟨l, hl, hproc⟩ := processes_eq_cons h
  obtain ⟨hring, hnodup, hlen⟩ := h.round hl
  obtain ⟨hring', hmem, hpid, hpages, hcard, hdisp⟩ :=
    schedule_dispatched hring.tail hnodup hlen ht
  have hcur : s.current ∉ l := (List.nodup_cons.mp hring.nodup).1
  have hmap : (l ++ [s.current]).map s.preempted.processOf =
      l.map s.processOf ++ [preempt (s.processOf s.current)] := by
    rw [List.map_append, List.map_singleton, preempted_processOf, if_pos rfl]
    congr 1
    refine List.map_congr_left fun a ha => ?_
    rw [preempted_processOf, if_neg]
    rintro rfl
    exact hcur ha
  rw [hmap] at hdisp
  have hperm : (pids t).Perm (pids s) := by
    refine hdisp.perm_pids.trans ?_
    rw [pids, hproc]
    simp only [List.map_append, List.map_cons, List.map_nil, preempt_pid]
    exact List.perm_append_singleton _ _
  refine ⟨h.of_subset hring' (fun a ha => ?_) hpid hpages (fun p hp => hperm.mem_iff.mp hp)
    (hperm.nodup_iff.mpr h.pids_nodup) (hperm.mem_iff.mpr h.init), hpid, _, _, hproc, hdisp⟩
  have := hmem a ha
  rw [hl]
  simpa [or_comm] using this

/-! ### `createProcess` -/

/-- `allocPage` returns a page that it has not returned before. -/
def FreshPage (s : State) (page : ℕ) : Prop := IsPage page ∧ page ∉ s.pages

instance (s : State) (page : ℕ) : Decidable (FreshPage s page) :=
  inferInstanceAs (Decidable (_ ∧ _))

theorem newProcessSlot_nextOf (page : ℕ) (p : Process) (s : State) :
    (newProcessSlot page p s).nextOf = s.nextOf := by
  funext a
  by_cases h : a = page <;> simp [newProcessSlot, State.setSlot, State.nextOf, h]

theorem newProcessSlot_processOf (page : ℕ) (p : Process) (s : State) (a : ℕ) :
    (newProcessSlot page p s).processOf a = if a = page then p else s.processOf a := by
  by_cases h : a = page <;> simp [newProcessSlot, State.setSlot, State.processOf, h]

/-- What `createProcess` leaves in the memory when there is a current process. -/
theorem createProcess_memory {s : State} (h : s.current ≠ null) {page : ℕ}
    (hne : s.current ≠ page) :
    let t := (createProcess page s).2
    t.nextOf s.current = page ∧ t.nextOf page = s.nextOf s.current ∧
      (∀ a, a ≠ s.current → a ≠ page → t.nextOf a = s.nextOf a) ∧
      ∀ a, t.processOf a = if a = page then ⟨s.pid, .ready⟩ else s.processOf a := by
  have hadd : addProcess page ⟨s.pid, .ready⟩ (getProcess s).2 =
      ((newProcessSlot page ⟨s.pid, .ready⟩ (getProcess s).2).setNext s.current page).setNext page
        ((newProcessSlot page ⟨s.pid, .ready⟩ (getProcess s).2).nextOf s.current) := if_neg h
  intro t
  have hnext : t.nextOf = (addProcess page ⟨s.pid, .ready⟩ (getProcess s).2).nextOf := rfl
  have hproc : t.processOf = (addProcess page ⟨s.pid, .ready⟩ (getProcess s).2).processOf := rfl
  rw [hnext, hproc, hadd]
  refine ⟨?_, ?_, fun a ha hp => ?_, fun a => ?_⟩
  · rw [setNext_nextOf_ne _ _ hne, setNext_nextOf_self]
  · rw [setNext_nextOf_self, newProcessSlot_nextOf]
    rfl
  · rw [setNext_nextOf_ne _ _ hp, setNext_nextOf_ne _ _ ha, newProcessSlot_nextOf]
    rfl
  · rw [setNext_processOf, setNext_processOf, newProcessSlot_processOf]
    rfl

theorem createProcess_registers {s : State} (h : s.current ≠ null) (page : ℕ) :
    let t := (createProcess page s).2
    t.current = s.current ∧ t.cardinalProcesses = s.cardinalProcesses + 1 ∧
      t.pid = MachineInt.int32 (s.pid + 1) ∧ t.pages = page :: s.pages := by
  have hadd : addProcess page ⟨s.pid, .ready⟩ (getProcess s).2 =
      ((newProcessSlot page ⟨s.pid, .ready⟩ (getProcess s).2).setNext s.current page).setNext page
        ((newProcessSlot page ⟨s.pid, .ready⟩ (getProcess s).2).nextOf s.current) := if_neg h
  intro t
  have ht : t = { addProcess page ⟨s.pid, .ready⟩ (getProcess s).2 with
    cardinalProcesses := (addProcess page ⟨s.pid, .ready⟩ (getProcess s).2).cardinalProcesses +
      1 } := rfl
  rw [ht, hadd]
  exact ⟨rfl, rfl, rfl, rfl⟩

/-- The new slot comes behind the current one. -/
theorem RingInvariant.ring_createProcess {s : State} (h : RingInvariant s) {page : ℕ}
    (hpage : FreshPage s page) {l : List ℕ} (hl : ring s = s.current :: l) :
    let t := (createProcess page s).2
    page ∉ ring s ∧ IsRing t.nextOf s.current (s.current :: page :: l) ∧
      ring t = s.current :: page :: l := by
  have hfresh : page ∉ ring s := fun hmem => hpage.2 (h.slots page hmem)
  have hne : s.current ≠ page := fun he => hfresh (he ▸ h.current_mem)
  obtain ⟨hcur, hnext, hother, -⟩ := createProcess_memory h.current_ne_null hne
  obtain ⟨hcurrent, hcard, -, -⟩ := createProcess_registers h.current_ne_null page
  intro t
  have hring := h.isRing
  rw [hl] at hring
  have hring' := hring.insert (hl ▸ hfresh) hother hcur hnext
  refine ⟨hfresh, hring', ring_eq ?_ ?_⟩
  · rwa [hcurrent]
  · rw [hcard, ← length_ring, hl]
    rfl

theorem RingInvariant.createProcess {s : State} (h : RingInvariant s) {page : ℕ}
    (hpage : FreshPage s page) :
    RingInvariant (createProcess page s).2 ∧ ∃ c rest, processes s = c :: rest ∧
      processes (createProcess page s).2 = c :: ⟨s.pid, .ready⟩ :: rest := by
  obtain ⟨l, hl, hproc⟩ := processes_eq_cons h
  obtain ⟨hfresh, hring', heq⟩ := h.ring_createProcess hpage hl
  have hne : s.current ≠ page := fun he => hfresh (he ▸ h.current_mem)
  obtain ⟨-, -, -, hprocOf⟩ := createProcess_memory h.current_ne_null hne
  obtain ⟨hcurrent, -, hpid, hpages⟩ := createProcess_registers h.current_ne_null page
  rw [hl] at hfresh
  set t := (Scheduler.createProcess page s).2
  have hproc' : processes t = s.processOf s.current :: ⟨s.pid, .ready⟩ :: l.map s.processOf := by
    rw [processes, heq, List.map_cons, List.map_cons, hprocOf, hprocOf, if_neg hne, if_pos rfl]
    refine congrArg _ (congrArg _ (List.map_congr_left fun a ha => ?_))
    rw [hprocOf, if_neg]
    rintro rfl
    exact hfresh (List.mem_cons_of_mem _ ha)
  have hpids : (pids t).Perm (s.pid :: pids s) := by
    rw [pids, hproc', pids, hproc, List.map_cons, List.map_cons, List.map_cons]
    exact List.Perm.swap _ _ _
  have hisPage : ∀ a ∈ page :: s.pages, IsPage a := List.forall_mem_cons.mpr ⟨hpage.1, h.isPage⟩
  have hnodup : (page :: s.pages).Nodup := List.nodup_cons.mpr ⟨hpage.2, h.pages_nodup⟩
  have hcount : s.pid + 1 = (page :: s.pages).length := by
    rw [h.pid_eq]
    simp
  have hle : s.pid + 1 ≤ numberOfPages := by
    rw [hcount]
    exact_mod_cast length_le_numberOfPages hisPage hnodup
  have hn : numberOfPages = 1024 := by decide
  have hpos : 0 ≤ s.pid := by
    rw [h.pid_eq]
    exact Int.natCast_nonneg _
  have hpid' : t.pid = s.pid + 1 := by
    rw [hpid, MachineInt.int32_eq (by unfold MachineInt.intMin; omega)
      (by unfold MachineInt.intMax; omega)]
  refine ⟨⟨?_, ?_, ?_, ?_, ?_, ?_, ?_, ?_⟩, _, _, hproc, hproc'⟩
  · rwa [heq, hcurrent]
  · rw [heq, hpages]
    intro a ha
    rw [List.mem_cons, List.mem_cons] at ha
    rw [List.mem_cons]
    rcases ha with rfl | rfl | ha
    · exact Or.inr (h.slots _ h.current_mem)
    · exact Or.inl rfl
    · exact Or.inr (h.slots a (by rw [hl]; exact List.mem_cons_of_mem _ ha))
  · rwa [hpages]
  · rwa [hpages]
  · rw [hpages, hpid', hcount]
  · intro p hp
    rw [hpid']
    rcases List.mem_cons.mp (hpids.mem_iff.mp hp) with rfl | hp
    · exact ⟨hpos, by omega⟩
    · have := h.pid_range p hp
      omega
  · refine hpids.nodup_iff.mpr (List.nodup_cons.mpr ⟨fun hmem => ?_, h.pids_nodup⟩)
    have := (h.pid_range _ hmem).2
    omega
  · exact hpids.mem_iff.mpr (List.mem_cons_of_mem _ h.init)

/-! ### `removeProcess` -/

/-- The loop finds the first slot of the chain that holds `pid`, and the slot before it. -/
theorem findSlot_chain {s : State} {pid : ℤ} {prev a b : ℕ} {l : List ℕ}
    (h : Chain s.nextOf a l b) :
    ((∀ x ∈ l, (s.processOf x).pid ≠ pid) ∧ findSlot s pid l.length prev a = none) ∨
    ∃ l₁ p x l₂, prev :: l = l₁ ++ p :: x :: l₂ ∧ x ∈ l ∧ (s.processOf x).pid = pid ∧
      findSlot s pid l.length prev a = some (p, x) := by
  induction l generalizing prev a with
  | nil => exact Or.inl ⟨by simp, rfl⟩
  | cons x l ih =>
    obtain ⟨rfl, h⟩ := h
    simp only [List.length_cons, findSlot]
    by_cases hpid : (s.processOf a).pid = pid
    · exact Or.inr ⟨[], prev, a, l, rfl, List.mem_cons_self, hpid, if_pos hpid⟩
    · rw [if_neg hpid]
      rcases @ih a _ h with ⟨hnone, hrun⟩ | ⟨l₁, p, x, l₂, hl, hmem, hx, hrun⟩
      · exact Or.inl ⟨List.forall_mem_cons.mpr ⟨hpid, hnone⟩, hrun⟩
      · exact Or.inr ⟨prev :: l₁, p, x, l₂, by rw [hl]; rfl, List.mem_cons_of_mem a hmem, hx, hrun⟩

/-- The slot `x` behind `p` is taken out of the links. -/
def State.unlink (s : State) (p x : ℕ) : State :=
  { s.setNext p (s.nextOf x) with cardinalProcesses := s.cardinalProcesses - 1 }

theorem unlink_nextOf_self (s : State) (p x : ℕ) : (s.unlink p x).nextOf p = s.nextOf x :=
  setNext_nextOf_self _ _ _

theorem unlink_nextOf_ne (s : State) {p y : ℕ} (x : ℕ) (h : y ≠ p) :
    (s.unlink p x).nextOf y = s.nextOf y := setNext_nextOf_ne _ _ h

theorem unlink_processOf (s : State) (p x : ℕ) : (s.unlink p x).processOf = s.processOf :=
  setNext_processOf _ _ _

/-- The current process is not the only one: the init process is never removed. -/
theorem RingInvariant.not_alone {s : State} (h : RingInvariant s)
    (hpid : getCurrentPid s ≠ 0) : ring s ≠ [s.current] := by
  intro hl
  have hinit := h.init
  rw [pids, processes, hl, List.map_singleton, List.map_singleton, ← getCurrentPid_eq h,
    List.mem_singleton] at hinit
  exact hpid hinit.symm

/-- The branch for a single process is never taken. -/
theorem RingInvariant.not_single {s : State} (h : RingInvariant s) {pid : ℤ} (hpid : pid ≠ 0) :
    ¬ (eqProcess (s.processOf s.current) (s.processOf (s.nextOf s.current)) ∧
      (s.processOf s.current).pid = pid) := by
  rintro ⟨heq, hp⟩
  obtain ⟨l, hl⟩ := h.exists_cons
  have hring := h.isRing
  rw [hl] at hring
  have hnext : s.nextOf s.current ∈ ring s := by
    have hchain := hring.tail
    rw [hl]
    cases l with
    | nil => simp [hchain.1]
    | cons y l => simp [hchain.1]
  have hsame := h.slot_eq h.current_mem hnext (by simpa [eqProcess] using heq)
  refine h.not_alone (by rw [getCurrentPid_eq h, hp]; exact hpid) ?_
  rw [hl]
  cases l with
  | nil => rfl
  | cons y l =>
    have hy := hring.chain.2.1
    exact absurd hring.nodup (by rw [← hsame] at hy; simp [← hy])

theorem removeProcess_eq {s : State} (h : RingInvariant s) {pid : ℤ} (hpid : pid ≠ 0) :
    removeProcess pid s = match findSlot s pid s.cardinalProcesses s.current (s.nextOf s.current)
      with
      | none => some s
      | some (p, x) =>
        if (s.processOf x).pid = getCurrentPid s then yield (s.unlink p x)
        else some (s.unlink p x) := by
  rw [removeProcess, if_neg hpid, if_neg h.current_ne_null, if_neg (h.not_single hpid)]
  cases hfind : findSlot s pid s.cardinalProcesses s.current (s.nextOf s.current) with
  | none => rfl
  | some r =>
    obtain ⟨p, x⟩ := r
    have hp : ∀ y, (s.unlink p x).processOf y = s.processOf y := fun y => by
      rw [unlink_processOf]
    have he : eqProcess ((s.unlink p x).processOf x)
        ((s.unlink p x).processOf (s.unlink p x).current) =
          decide ((s.processOf x).pid = getCurrentPid s) := by
      rw [hp, hp, getCurrentPid_eq h]
      rfl
    show (if eqProcess ((s.unlink p x).processOf x)
        ((s.unlink p x).processOf (s.unlink p x).current) = true then _ else _) = _
    rw [he]
    simp only [decide_eq_true_eq]
    rfl

theorem removeProcess_of_not_mem {s : State} (h : RingInvariant s) {pid : ℤ} (hpid : pid ≠ 0)
    (hnone : pid ∉ pids s) : removeProcess pid s = some s := by
  obtain ⟨l, hl⟩ := h.exists_cons
  obtain ⟨hring, -, hlen⟩ := h.round hl
  have hno : ∀ x ∈ l ++ [s.current], (s.processOf x).pid ≠ pid := fun x hx hp => by
    refine hnone ?_
    rw [pids, processes, List.map_map, hl, List.mem_map]
    exact ⟨x, by simpa [or_comm] using hx, hp⟩
  rw [removeProcess_eq h hpid]
  rcases @findSlot_chain s pid s.current _ _ _ hring.tail with
    ⟨-, hrun⟩ | ⟨l₁, p, x, l₂, -, hmem, hx, -⟩
  · rw [hlen] at hrun
    rw [hrun]
  · exact absurd hx (hno x hmem)

/-- The slot `x` behind `p`, which is not the current one, leaves the ring. -/
theorem isRing_unlink {s : State} {p x : ℕ} {l₁ l₂ : List ℕ}
    (h : IsRing s.nextOf s.current (ring s)) (hl : ring s = l₁ ++ p :: x :: l₂) :
    IsRing (s.unlink p x).nextOf s.current (l₁ ++ p :: l₂) ∧ ring (s.unlink p x) = l₁ ++ p :: l₂ := by
  rw [hl] at h
  have hsub : (l₁ ++ p :: l₂).Sublist (l₁ ++ p :: x :: l₂) :=
    ((List.sublist_cons_self x l₂).cons_cons p).append_left l₁
  have hring : IsRing (s.unlink p x).nextOf s.current (l₁ ++ p :: l₂) :=
    ⟨h.chain.unlink h.nodup (fun y hy _ => unlink_nextOf_ne s x hy) (unlink_nextOf_self s p x),
      by simp, h.nodup.sublist hsub⟩
  refine ⟨hring, ring_eq hring ?_⟩
  have hlen := length_ring s
  rw [hl] at hlen
  show _ = s.cardinalProcesses - 1
  rw [← hlen]
  simp

theorem RingInvariant.unlink {s : State} (h : RingInvariant s) {p x : ℕ} {l₁ l₂ : List ℕ}
    (hl : ring s = l₁ ++ p :: x :: l₂) (hpid : (s.processOf x).pid ≠ 0) :
    RingInvariant (s.unlink p x) ∧
      processes (s.unlink p x) =
        (processes s).filter fun q => q.pid ≠ (s.processOf x).pid := by
  obtain ⟨hring', heq⟩ := isRing_unlink h.isRing hl
  have hring := h.isRing
  rw [hl] at hring
  have hsub : (l₁ ++ p :: l₂).Sublist (l₁ ++ p :: x :: l₂) :=
    ((List.sublist_cons_self x l₂).cons_cons p).append_left l₁
  have hkeep : ∀ a ∈ l₁ ++ p :: x :: l₂, a ≠ x → (s.processOf a).pid ≠ (s.processOf x).pid :=
    fun a ha hne hp => hne (h.slot_eq (hl ▸ ha) (by simp [hl]) hp)
  have hproc : processes (s.unlink p x) =
      (processes s).filter fun q => q.pid ≠ (s.processOf x).pid := by
    have hsplit : l₁ ++ p :: x :: l₂ = (l₁ ++ [p]) ++ x :: l₂ := by simp
    have hxnot : x ∉ (l₁ ++ [p]) ++ l₂ :=
      (List.nodup_cons.mp (List.nodup_middle.mp (hsplit ▸ hring.nodup))).1
    have hleft : ∀ a ∈ l₁ ++ [p], (s.processOf a).pid ≠ (s.processOf x).pid := fun a ha =>
      hkeep a (hsplit ▸ List.mem_append_left _ ha) fun he =>
        hxnot (he ▸ List.mem_append_left _ ha)
    have hright : ∀ a ∈ l₂, (s.processOf a).pid ≠ (s.processOf x).pid := fun a ha =>
      hkeep a (by simp [ha]) fun he => hxnot (he ▸ List.mem_append_right _ ha)
    rw [processes, heq, unlink_processOf, processes, hl, hsplit, List.filter_map,
      List.filter_append, List.filter_cons_of_neg (by simp),
      List.filter_eq_self.mpr (by simpa using hleft),
      List.filter_eq_self.mpr (by simpa using hright)]
    simp
  have hpids : (pids (s.unlink p x)).Sublist (pids s) := by
    rw [pids, hproc, pids]
    exact List.filter_sublist.map _
  refine ⟨h.of_subset (by rw [heq]; exact hring') (fun a ha => ?_) rfl rfl
    (fun q hq => hpids.subset hq) (h.pids_nodup.sublist hpids) ?_, hproc⟩
  · rw [heq] at ha
    rw [hl]
    exact hsub.subset ha
  · obtain ⟨q, hq, hp⟩ := List.mem_map.mp h.init
    rw [pids, hproc, List.mem_map]
    refine ⟨q, List.mem_filter.mpr ⟨hq, ?_⟩, hp⟩
    rw [hp, decide_eq_true_eq]
    exact fun he => hpid he.symm

/-- The current slot, with `p` before it, is unlinked: the links of the others form a ring that
starts at its successor. -/
theorem RingInvariant.unlink_current_chain {s : State} (h : RingInvariant s) {p : ℕ} {l : List ℕ}
    (hl : ring s = s.current :: (l ++ [p])) :
    Chain (s.unlink p s.current).nextOf ((s.unlink p s.current).nextOf s.current) (l ++ [p])
        ((s.unlink p s.current).nextOf s.current) ∧
      (l ++ [p]).length = (s.unlink p s.current).cardinalProcesses ∧
      processes s = s.processOf s.current ::
        (l ++ [p]).map (s.unlink p s.current).preempted.processOf := by
  have hring := h.isRing
  rw [hl] at hring
  obtain ⟨hcur, -⟩ := List.nodup_cons.mp hring.nodup
  have hne : s.current ≠ p := fun he => hcur (by simp [he])
  refine ⟨?_, ?_, ?_⟩
  · have hnodup : (l ++ p :: s.current :: []).Nodup := by
      have := List.nodup_append_comm.mp (show ([s.current] ++ (l ++ [p])).Nodup from hring.nodup)
      simpa using this
    have htail : Chain s.nextOf (s.nextOf s.current) (l ++ p :: s.current :: [])
        (s.nextOf s.current) := by simpa using hring.tail
    rw [unlink_nextOf_ne s s.current hne]
    exact htail.unlink hnodup (fun y hy _ => unlink_nextOf_ne s _ hy) (unlink_nextOf_self s p _)
  · have hcard : (s.unlink p s.current).cardinalProcesses = s.cardinalProcesses - 1 := rfl
    rw [hcard, ← length_ring, hl]
    simp
  · rw [processes, hl, List.map_cons]
    refine congrArg _ (List.map_congr_left fun a ha => ?_)
    rw [preempted_processOf, if_neg, unlink_processOf]
    rintro rfl
    exact hcur ha

/-- The current slot leaves the ring and the next ready process runs. -/
theorem RingInvariant.unlink_current {s t : State} (h : RingInvariant s) {p : ℕ} {l : List ℕ}
    (hl : ring s = s.current :: (l ++ [p])) (hpid : getCurrentPid s ≠ 0)
    (ht : Scheduler.schedule (s.unlink p s.current) = some t) :
    RingInvariant t ∧ t.pid = s.pid ∧ ∃ rest, processes s = s.processOf s.current :: rest ∧
      Dispatched rest (processes t) := by
  obtain ⟨hchain, hlen, hproc⟩ := h.unlink_current_chain hl
  have hnodup := h.isRing.nodup
  rw [hl] at hnodup
  obtain ⟨hring', hsub, hpid', hpages, -, hdisp⟩ :=
    schedule_dispatched hchain (List.nodup_cons.mp hnodup).2 hlen ht
  set rest := (l ++ [p]).map (s.unlink p s.current).preempted.processOf
  have hperm : (pids t).Perm (rest.map Process.pid) := hdisp.perm_pids
  have hpids : pids s = getCurrentPid s :: rest.map Process.pid := by
    rw [pids, hproc, List.map_cons, getCurrentPid_eq h]
  have hinit := h.init
  have hnodups := h.pids_nodup
  rw [hpids] at hinit hnodups
  have hin : initPid ∈ rest.map Process.pid :=
    (List.mem_cons.mp hinit).resolve_left fun he => hpid he.symm
  refine ⟨h.of_subset hring' (fun a ha => ?_) hpid' hpages (fun q hq => ?_)
    (hperm.nodup_iff.mpr (List.nodup_cons.mp hnodups).2) (hperm.mem_iff.mpr hin),
    hpid', rest, hproc, hdisp⟩
  · rw [hl]
    exact List.mem_cons_of_mem _ (hsub a ha)
  · rw [hpids]
    exact List.mem_cons_of_mem _ (hperm.mem_iff.mp hq)

theorem getCurrentPid_unlink (s : State) (p x : ℕ) :
    getCurrentPid (s.unlink p x) = getCurrentPid s := by
  unfold getCurrentPid
  rw [unlink_processOf]
  rfl

/-- What `removeProcess` does: the process is unknown, it is another one than the running one,
or it is the running one. -/
theorem removeProcess_cases {s : State} (h : RingInvariant s) {pid : ℤ} (hpid : pid ≠ 0) :
    (pid ∉ pids s ∧ removeProcess pid s = some s) ∨
    (∃ l₁ p x l₂, ring s = l₁ ++ p :: x :: l₂ ∧ (s.processOf x).pid = pid ∧
      pid ≠ getCurrentPid s ∧ removeProcess pid s = some (s.unlink p x)) ∨
    (∃ l p, ring s = s.current :: (l ++ [p]) ∧ pid = getCurrentPid s ∧
      removeProcess pid s = schedule (s.unlink p s.current)) := by
  by_cases hmem : pid ∈ pids s
  swap
  · exact Or.inl ⟨hmem, removeProcess_of_not_mem h hpid hmem⟩
  obtain ⟨l, hl⟩ := h.exists_cons
  obtain ⟨hring, -, hlen⟩ := h.round hl
  rcases @findSlot_chain s pid s.current _ _ _ hring.tail with
    ⟨hnone, -⟩ | ⟨l₁, p, x, l₂, hsplit, -, hx, hrun⟩
  · rw [pids, processes, List.map_map, hl, List.mem_map] at hmem
    obtain ⟨x, hx, hp⟩ := hmem
    exact absurd hp (hnone x (by simpa [or_comm] using hx))
  right
  rw [removeProcess_eq h hpid, ← hlen, hrun]
  dsimp only
  rcases List.eq_nil_or_concat l₂ with rfl | ⟨l₂, z, rfl⟩
  · -- the search went once round: `x` is the current slot
    right
    have hsplit' : s.current :: l ++ [s.current] = (l₁ ++ [p]) ++ [x] := by simpa using hsplit
    obtain ⟨hcons, hlast⟩ := List.append_inj' hsplit' rfl
    obtain rfl : s.current = x := by simpa using hlast
    have hcur : getCurrentPid s = pid := by rw [getCurrentPid_eq h, hx]
    rw [if_pos (hx.trans hcur.symm), yield, if_neg (by exact h.current_ne_null)]
    cases l₁ with
    | nil =>
      have hnil : l = [] := by simpa using (List.cons.inj hcons).2
      exact absurd (by rw [hl, hnil]) (h.not_alone (by rw [hcur]; exact hpid))
    | cons y l₁ =>
      have hl₁ : l = l₁ ++ [p] := (List.cons.inj hcons).2
      exact ⟨l₁, p, hl.trans (by rw [hl₁]), hcur.symm, rfl⟩
  · left
    have hsplit' : s.current :: l ++ [s.current] = (l₁ ++ p :: x :: l₂) ++ [z] := by
      simpa using hsplit
    obtain ⟨hcons, -⟩ := List.append_inj' hsplit' rfl
    have hls : ring s = l₁ ++ p :: x :: l₂ := hl.trans hcons
    have hxne : x ≠ s.current := by
      rintro rfl
      have hn := hring.nodup
      rw [hcons] at hn
      cases l₁ with
      | nil =>
        rw [List.nil_append] at hcons hn
        rw [← (List.cons.inj hcons).1] at hn
        simp at hn
      | cons y l₁ =>
        rw [List.cons_append] at hcons hn
        rw [← (List.cons.inj hcons).1] at hn
        simp at hn
    have hother : (s.processOf x).pid ≠ getCurrentPid s := fun he => by
      rw [getCurrentPid_eq h] at he
      exact hxne (h.slot_eq (by simp [hls]) h.current_mem he)
    exact ⟨l₁, p, x, l₂, hls, hx, hx ▸ hother, if_neg hother⟩

/-- Removing a process: it is unknown, or it leaves the ring, and when it is the running one
the next ready process of the others takes over. -/
theorem RingInvariant.removeProcess {s t : State} (h : RingInvariant s) {pid : ℤ} (hpid : pid ≠ 0)
    (ht : removeProcess pid s = some t) :
    (pid ∉ pids s ∧ t = s) ∨
    (pid ≠ getCurrentPid s ∧ RingInvariant t ∧ t.pid = s.pid ∧
      getCurrentPid t = getCurrentPid s ∧
      processes t = (processes s).filter fun q => q.pid ≠ pid) ∨
    (pid = getCurrentPid s ∧ RingInvariant t ∧ t.pid = s.pid ∧
      ∃ c rest, processes s = c :: rest ∧ c.pid = pid ∧ Dispatched rest (processes t)) := by
  rcases removeProcess_cases h hpid with
    ⟨hnone, hrun⟩ | ⟨l₁, p, x, l₂, hl, rfl, hother, hrun⟩ | ⟨l, p, hl, hcur, hrun⟩
  · rw [hrun, Option.some.injEq] at ht
    exact Or.inl ⟨hnone, ht.symm⟩
  · rw [hrun, Option.some.injEq] at ht
    subst ht
    obtain ⟨hinv, hproc⟩ := h.unlink hl hpid
    exact Or.inr (Or.inl ⟨hother, hinv, rfl, getCurrentPid_unlink s p x, hproc⟩)
  · rw [hrun] at ht
    obtain ⟨hinv, hcount, rest, hproc, hdisp⟩ := h.unlink_current hl (hcur ▸ hpid) ht
    refine Or.inr (Or.inr ⟨hcur, hinv, hcount, _, rest, hproc, ?_, hdisp⟩)
    rw [hcur, getCurrentPid_eq h]

theorem RingInvariant.yield {s t : State} (h : RingInvariant s) (ht : yield s = some t) :
    RingInvariant t := by
  rw [Scheduler.yield, if_neg h.current_ne_null] at ht
  exact (h.schedule ht).1

theorem RingInvariant.of_removeProcess {s t : State} (h : RingInvariant s) {pid : ℤ}
    (ht : Scheduler.removeProcess pid s = some t) : RingInvariant t := by
  by_cases hpid : pid = 0
  · rw [Scheduler.removeProcess, if_pos hpid] at ht
    exact h.yield ht
  · rcases h.removeProcess hpid ht with ⟨-, rfl⟩ | ⟨-, hinv, -⟩ | ⟨-, hinv, -⟩
    · exact h
    · exact hinv
    · exact hinv

/-! ### What the rest of the kernel sees

The numbers of the processes in the ring, their states, and the current one. -/

def InState (s : State) (pid : ℤ) (state : ProcessState) : Prop := ⟨pid, state⟩ ∈ processes s

theorem InState.mem_pids {s : State} {pid : ℤ} {state : ProcessState} (h : InState s pid state) :
    pid ∈ pids s := List.mem_map.mpr ⟨_, h, rfl⟩

def Blocked (s : State) (pid : ℤ) : Prop := ⟨pid, .blocked⟩ ∈ processes s

theorem Blocked.mem_pids {s : State} {pid : ℤ} (h : Blocked s pid) : pid ∈ pids s :=
  InState.mem_pids (show InState s pid .blocked from h)

theorem getCurrentPid_of_processes {s : State} (h : RingInvariant s) {p : Process}
    {l : List Process} (hl : processes s = p :: l) : getCurrentPid s = p.pid := by
  obtain ⟨m, -, hm⟩ := processes_eq_cons h
  rw [getCurrentPid_eq h, ← (List.cons.inj (hm.symm.trans hl)).1]

theorem state_eq_of_mem {s : State} (h : RingInvariant s) {p q : Process} (hp : p ∈ processes s)
    (hq : q ∈ processes s) (he : p.pid = q.pid) : p = q :=
  List.inj_on_of_nodup_map h.pids_nodup hp hq he

theorem InState.unique {s : State} (h : RingInvariant s) {pid : ℤ} {state state' : ProcessState}
    (hs : InState s pid state) (hs' : InState s pid state') : state = state' :=
  congrArg Process.state (state_eq_of_mem h hs hs' rfl)

theorem Dispatched.current_running {t : State} {l : List Process} (h : RingInvariant t)
    (hd : Dispatched l (processes t)) : InState t (getCurrentPid t) .running := by
  obtain ⟨l₁, p, l₂, -, -, hm⟩ := hd.exists_split
  rw [InState, getCurrentPid_of_processes h hm, hm]
  exact List.mem_cons_self

theorem Dispatched.current_not_blocked {t : State} {l : List Process} (h : RingInvariant t)
    (hd : Dispatched l (processes t)) : ¬ Blocked t (getCurrentPid t) := fun hb =>
  absurd ((hd.current_running h).unique h hb) (by simp)

section ChangeState

variable {s : State} (h : RingInvariant s) (pid : ℤ) (state : ProcessState)
include h

theorem pids_changeProcessState : pids (changeProcessState pid state s) = pids s := by
  rw [pids, (changeProcessState_spec h pid state).2.1, pids, List.map_map]
  exact List.map_congr_left fun p _ => withState_pid pid state p

theorem pid_changeProcessState : (changeProcessState pid state s).pid = s.pid := by
  rcases changeProcessState_cases h.isRing pid state with ⟨x, -, -, ht⟩ | ⟨-, ht⟩ <;> rw [ht]
  rfl

theorem inState_changeProcessState_ne {p : ℤ} (hp : p ≠ pid) (state' : ProcessState) :
    InState (changeProcessState pid state s) p state' ↔ InState s p state' := by
  rw [InState, (changeProcessState_spec h pid state).2.1, List.mem_map]
  constructor
  · rintro ⟨q, hq, he⟩
    have hqpid : q.pid = p := by rw [← withState_pid pid state q, he]
    rw [withState, if_neg (by rw [hqpid]; exact hp)] at he
    rw [he] at hq
    exact hq
  · exact fun hb => ⟨_, hb, if_neg hp⟩

theorem inState_changeProcessState_self (hp : pid ∈ pids s) :
    InState (changeProcessState pid state s) pid state := by
  obtain ⟨q, hq, rfl⟩ := List.mem_map.mp hp
  rw [InState, (changeProcessState_spec h _ _).2.1, List.mem_map]
  exact ⟨q, hq, if_pos rfl⟩

theorem blocked_changeProcessState_ne {p : ℤ} (hp : p ≠ pid) :
    Blocked (changeProcessState pid state s) p ↔ Blocked s p :=
  inState_changeProcessState_ne h pid state hp .blocked

/-- Only a change to `BLOCKED` blocks. -/
theorem Blocked.of_changeProcessState {p : ℤ} (hstate : state ≠ .blocked)
    (hb : Blocked (changeProcessState pid state s) p) : Blocked s p := by
  rw [Blocked, (changeProcessState_spec h pid state).2.1, List.mem_map] at hb
  obtain ⟨q, hq, he⟩ := hb
  unfold withState at he
  split_ifs at he
  · exact absurd (congrArg Process.state he) hstate
  · rw [he] at hq
    exact hq

theorem not_blocked_changeProcessState_self (p : ℤ) (hstate : state ≠ .blocked) :
    ¬ Blocked (changeProcessState p state s) p := by
  rw [Blocked, (changeProcessState_spec h _ _).2.1, List.mem_map]
  rintro ⟨q, -, he⟩
  have hq : q.pid = p := by rw [← withState_pid p state q, he]
  rw [withState, if_pos hq] at he
  exact hstate (congrArg Process.state he)

theorem blocked_changeProcessState_self {p : ℤ} (hp : p ∈ pids s) :
    Blocked (changeProcessState p .blocked s) p := inState_changeProcessState_self h p .blocked hp

theorem blocked_changeProcessState_of {p : ℤ} (hb : Blocked s p) :
    Blocked (changeProcessState pid .blocked s) p := by
  by_cases hp : p = pid
  · subst hp
    exact blocked_changeProcessState_self h hb.mem_pids
  · exact (blocked_changeProcessState_ne h pid _ hp).mpr hb

end ChangeState

theorem pids_createProcess {s : State} (h : RingInvariant s) {page : ℕ} (hp : FreshPage s page) :
    (pids (createProcess page s).2).Perm (s.pid :: pids s) := by
  obtain ⟨-, c, rest, hproc, hproc'⟩ := h.createProcess hp
  rw [pids, hproc', pids, hproc]
  exact List.Perm.swap _ _ _

theorem getCurrentPid_createProcess {s : State} (h : RingInvariant s) {page : ℕ}
    (hp : FreshPage s page) : getCurrentPid (createProcess page s).2 = getCurrentPid s := by
  obtain ⟨hinv, c, rest, hproc, hproc'⟩ := h.createProcess hp
  rw [getCurrentPid_of_processes hinv hproc', getCurrentPid_of_processes h hproc]

/-- The new process is ready. -/
theorem inState_createProcess {s : State} (h : RingInvariant s) {page : ℕ} (hp : FreshPage s page)
    (p : ℤ) {state : ProcessState} (hstate : state ≠ .ready) :
    InState (createProcess page s).2 p state ↔ InState s p state := by
  obtain ⟨-, c, rest, hproc, hproc'⟩ := h.createProcess hp
  rw [InState, hproc', InState, hproc]
  simp [hstate]

theorem blocked_createProcess {s : State} (h : RingInvariant s) {page : ℕ} (hp : FreshPage s page)
    (p : ℤ) : Blocked (createProcess page s).2 p ↔ Blocked s p :=
  inState_createProcess h hp p (by simp)

theorem pid_createProcess {s : State} (h : RingInvariant s) {page : ℕ} (hp : FreshPage s page) :
    (createProcess page s).2.pid = s.pid + 1 := by
  have hinv := (h.createProcess hp).1
  have hpages := (createProcess_registers h.current_ne_null page).2.2.2
  rw [hinv.pid_eq, hpages, h.pid_eq]
  simp

theorem eq_preempt_iff {q : Process} (hready : q.state ≠ .ready) (hrunning : q.state ≠ .running)
    (c : Process) : q = preempt c ↔ q = c := by
  unfold preempt
  split_ifs with hr
  · constructor
    · rintro rfl
      exact absurd rfl hready
    · rintro rfl
      exact absurd hr hrunning
  · exact Iff.rfl

theorem inState_schedule {s t : State} (h : RingInvariant s) (ht : schedule s = some t) (p : ℤ)
    {state : ProcessState} (hready : state ≠ .ready) (hrunning : state ≠ .running) :
    InState t p state ↔ InState s p state := by
  obtain ⟨-, -, c, rest, hproc, hdisp⟩ := h.schedule ht
  rw [InState, hdisp.mem_iff hready hrunning, InState, hproc, List.mem_append, List.mem_singleton,
    List.mem_cons, eq_preempt_iff hready hrunning, or_comm]

/-- What a switch changes: nobody is blocked or woken, and the new current process runs. -/
theorem schedule_view {s t : State} (h : RingInvariant s) (ht : schedule s = some t) :
    RingInvariant t ∧ (pids t).Perm (pids s) ∧ t.pid = s.pid ∧
      (∀ p, Blocked t p ↔ Blocked s p) ∧ ¬ Blocked t (getCurrentPid t) := by
  obtain ⟨hinv, hpid, c, rest, hproc, hdisp⟩ := h.schedule ht
  have hperm : (pids t).Perm (pids s) := by
    refine hdisp.perm_pids.trans ?_
    rw [pids, hproc]
    simp only [List.map_append, List.map_cons, List.map_nil, preempt_pid]
    exact List.perm_append_singleton _ _
  exact ⟨hinv, hperm, hpid, fun p => inState_schedule h ht p (by simp) (by simp),
    hdisp.current_not_blocked hinv⟩

/-- A process that is removed leaves the others in their states, unless they take over. -/
theorem inState_removeProcess {s t : State} (h : RingInvariant s) {pid : ℤ} (hpid : pid ≠ 0)
    (ht : removeProcess pid s = some t) (p : ℤ) {state : ProcessState} (hready : state ≠ .ready)
    (hrunning : state ≠ .running) : InState t p state ↔ InState s p state ∧ p ≠ pid := by
  rcases h.removeProcess hpid ht with
    ⟨hnone, rfl⟩ | ⟨-, -, -, -, hproc⟩ | ⟨-, -, -, c, rest, hproc, hc, hdisp⟩
  · exact ⟨fun hb => ⟨hb, fun he => hnone (he ▸ hb.mem_pids)⟩, fun hb => hb.1⟩
  · rw [InState, hproc, List.mem_filter, InState]
    simp
  · have hnodup := h.pids_nodup
    rw [pids, hproc, List.map_cons, hc] at hnodup
    rw [InState, hdisp.mem_iff hready hrunning, InState, hproc, List.mem_cons]
    constructor
    · intro hb
      refine ⟨Or.inr hb, fun he => (List.nodup_cons.mp hnodup).1 ?_⟩
      exact List.mem_map.mpr ⟨_, hb, he⟩
    · rintro ⟨rfl | hb, hne⟩
      · exact absurd hc hne
      · exact hb

/-- What removing a process changes: it is no longer in the ring, and nobody else is blocked or
woken. -/
theorem removeProcess_view {s t : State} (h : RingInvariant s) {pid : ℤ} (hpid : pid ≠ 0)
    (ht : removeProcess pid s = some t) (hcur : ¬ Blocked s (getCurrentPid s)) :
    RingInvariant t ∧ (∀ p, p ∈ pids t ↔ p ∈ pids s ∧ p ≠ pid) ∧ t.pid = s.pid ∧
      (∀ p, Blocked t p ↔ Blocked s p ∧ p ≠ pid) ∧ ¬ Blocked t (getCurrentPid t) := by
  have hblocked : ∀ p, Blocked t p ↔ Blocked s p ∧ p ≠ pid := fun p =>
    inState_removeProcess h hpid ht p (by simp) (by simp)
  rcases h.removeProcess hpid ht with
    ⟨hnone, rfl⟩ | ⟨hother, hinv, hcount, hcurrent, hproc⟩ |
      ⟨rfl, hinv, hcount, c, rest, hproc, hc, hdisp⟩
  · refine ⟨h, fun p => ?_, rfl, hblocked, hcur⟩
    exact ⟨fun hp => ⟨hp, fun he => hnone (he ▸ hp)⟩, fun hp => hp.1⟩
  · refine ⟨hinv, fun p => ?_, hcount, hblocked, ?_⟩
    · rw [pids, hproc, pids, List.mem_map, List.mem_map]
      constructor
      · rintro ⟨q, hq, rfl⟩
        obtain ⟨hq, hne⟩ := List.mem_filter.mp hq
        exact ⟨⟨q, hq, rfl⟩, by simpa using hne⟩
      · rintro ⟨⟨q, hq, rfl⟩, hne⟩
        exact ⟨q, List.mem_filter.mpr ⟨hq, by simpa using hne⟩, rfl⟩
    · rw [hblocked, hcurrent]
      exact fun hb => hcur hb.1
  · have hpids : pids s = c.pid :: rest.map Process.pid := by rw [pids, hproc, List.map_cons]
    have hnodup := h.pids_nodup
    rw [hpids, hc] at hnodup
    refine ⟨hinv, fun p => ?_, hcount, hblocked, hdisp.current_not_blocked hinv⟩
    rw [pids, hdisp.perm_pids.mem_iff, hpids, hc, List.mem_cons]
    constructor
    · intro hp
      exact ⟨Or.inr hp, fun he => (List.nodup_cons.mp hnodup).1 (he ▸ hp)⟩
    · rintro ⟨rfl | hp, hne⟩
      · exact absurd rfl hne
      · exact hp

/-! ### Slots instead of numbers -/

/-- The process in the slot is in the ring and waits. -/
def BlockedSlot (s : State) (a : ℕ) : Prop := a ∈ ring s ∧ (s.processOf a).state = .blocked

instance (s : State) (a : ℕ) : Decidable (BlockedSlot s a) := inferInstanceAs (Decidable (_ ∧ _))

theorem ring_changeProcessState {s : State} (h : RingInvariant s) (pid : ℤ)
    (state : ProcessState) : ring (changeProcessState pid state s) = ring s := by
  rcases changeProcessState_cases h.isRing pid state with ⟨x, -, -, ht⟩ | ⟨-, ht⟩
  · rw [ht, (h.setState x state).2.1]
  · rw [ht]

theorem processOf_changeProcessState_slot {s : State} (h : RingInvariant s) {a : ℕ}
    (ha : a ∈ ring s) (state : ProcessState) (b : ℕ) :
    ((changeProcessState (s.processOf a).pid state s).processOf b).state =
      if b = a then state else (s.processOf b).state := by
  rw [h.changeProcessState_slot ha]
  split_ifs with hb
  · rw [hb, setState_processOf_self]
  · rw [setState_processOf_ne s state hb]

/-- A switch keeps the slots of the ring and blocks and wakes nobody. -/
theorem schedule_slots {s t : State} (h : RingInvariant s) (ht : schedule s = some t) :
    (∀ a, a ∈ ring t ↔ a ∈ ring s) ∧
      (∀ a, (t.processOf a).state = .blocked ↔ (s.processOf a).state = .blocked) ∧
      (t.processOf t.current).state = .running := by
  obtain ⟨l, hl⟩ := h.exists_cons
  obtain ⟨hring, hnodup, hlen⟩ := h.round hl
  obtain ⟨l₁, x, l₂, hsplit, hready, rfl, -, heq⟩ := schedule_chain hring.tail hnodup hlen ht
  refine ⟨fun a => ?_, fun a => ?_, ?_⟩
  · have hmem : a ∈ l ++ [s.current] ↔ a ∈ l₁ ++ x :: l₂ := by rw [hsplit]
    rw [heq, hl]
    simp only [List.mem_append, List.mem_cons] at hmem ⊢
    tauto
  · by_cases hax : a = x
    · subst hax
      rw [setState_processOf_self]
      have hne : (s.processOf a).state ≠ .blocked := by
        intro hb
        rw [preempted_processOf] at hready
        unfold preempt at hready
        split_ifs at hready <;> simp_all
      simp [hne]
    · rw [setState_processOf_ne _ _ hax]
      show (s.preempted.processOf a).state = .blocked ↔ _
      rw [preempted_processOf]
      unfold preempt
      split_ifs with hcur hrun
      · simp [hrun]
      · exact Iff.rfl
      · exact Iff.rfl
  · exact congrArg Process.state (setState_processOf_self _ x .running)

/-- A new process is not blocked. -/
theorem createProcess_slots {s : State} (h : RingInvariant s) {page : ℕ} (hp : FreshPage s page) :
    (∀ a, a ∈ ring (createProcess page s).2 ↔ a = page ∨ a ∈ ring s) ∧
      ∀ a, BlockedSlot (createProcess page s).2 a ↔ BlockedSlot s a := by
  obtain ⟨l, hl⟩ := h.exists_cons
  obtain ⟨hfresh, -, heq⟩ := h.ring_createProcess hp hl
  have hne : s.current ≠ page := fun he => hfresh (he ▸ h.current_mem)
  obtain ⟨-, -, -, hprocOf⟩ := createProcess_memory h.current_ne_null hne
  have hmem : ∀ a, a ∈ ring (createProcess page s).2 ↔ a = page ∨ a ∈ ring s := fun a => by
    rw [heq, hl, List.mem_cons, List.mem_cons, List.mem_cons, or_left_comm]
  refine ⟨hmem, fun a => ?_⟩
  rw [BlockedSlot, hmem, hprocOf, BlockedSlot]
  split_ifs with ha
  · subst ha
    simp [hfresh]
  · simp [ha]

end GatOS.Scheduler
