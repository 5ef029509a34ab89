import GatOS.CondVariable
import GatOS.NameTable

/-!
# Objects that are opened by name

`mutex_open` and `cond_open` end their search at the first closed entry. An entry that was closed in
the middle of the table hides those behind it.
-/
namespace GatOS.NamedObjects
open Scheduler Sync QueuedMutex Cond NameTable Transition

/-- The names that are open. -/
def mutexNames (s : Machine) : ℤ → Option (List ℤ) := fun k =>
  if isOpen k s then some (s.openMutexes k).name else none

def condNames (s : Conds) : ℤ → Option (List ℤ) := fun k =>
  if condIsOpen k s then some (s.openConds k).name else none

/-- The search of the name meets no closed entry in front of an entry with this name. -/
def MutexFinds (s : Machine) : QueuedMutex.Action → Prop
  | .mutexOpen name _ => Reached (mutexNames s) name
  | _ => True

def CondFinds (s : Conds) : Cond.Action → Prop
  | .condOpen name _ _ _ => Reached (condNames s) name
  | _ => True

section

variable {s t : Machine} {key : ℤ}

theorem inRange_mutexNames (s : Machine) : InRange maxMutexes (mutexNames s) := by
  intro k hk
  have hopen : isOpen k s := by simpa [mutexNames] using hk
  simp only [isOpen, decide_eq_true_eq] at hopen
  exact ⟨hopen.1, hopen.2.1⟩

/-! ### The calls that keep the names -/

/-- No mutex is opened, closed or renamed. -/
def SameNames (s t : Machine) : Prop :=
  ∀ k, (t.openMutexes k).name = (s.openMutexes k).name ∧
    (t.openMutexes k).state = (s.openMutexes k).state

theorem SameNames.refl (s : Machine) : SameNames s s := fun _ => ⟨rfl, rfl⟩

theorem SameNames.trans {u : Machine} (h : SameNames s t) (g : SameNames t u) : SameNames s u :=
  fun k => ⟨(g k).1.trans (h k).1, (g k).2.trans (h k).2⟩

theorem SameNames.of_eq (h : t.openMutexes = s.openMutexes) : SameNames s t := fun k => by
  rw [h]
  exact ⟨rfl, rfl⟩

theorem SameNames.isOpen_eq (h : SameNames s t) (k : ℤ) : isOpen k t = isOpen k s := by
  rw [isOpen, isOpen, (h k).2]

theorem SameNames.mutexNames_eq (h : SameNames s t) : mutexNames t = mutexNames s := by
  funext k
  rw [mutexNames, mutexNames, h.isOpen_eq, (h k).1]

theorem sameNames_setMutex {m : MutexType} (hname : m.name = (s.openMutexes key).name)
    (hstate : m.state = (s.openMutexes key).state) : SameNames s (s.setMutex key m) := by
  intro k
  by_cases hk : k = key
  · subst hk
    simp [Machine.setMutex, hname, hstate]
  · simp [Machine.setMutex, hk]

theorem sameNames_setLocked (s : Machine) (key lock : ℤ) : SameNames s (s.setLocked key lock) :=
  sameNames_setMutex rfl rfl

theorem sameNames_dequeueProcess (key : ℤ) (s : Machine) :
    SameNames s (dequeueProcess key s).2 := sameNames_setMutex rfl rfl

theorem sameNames_queueProcess (key : ℤ) (node p : ℕ) (s : Machine) :
    SameNames s (queueProcess key node p s) := by
  unfold queueProcess
  split
  · exact SameNames.refl s
  · dsimp only
    split_ifs
    · exact (SameNames.of_eq rfl).trans (sameNames_setMutex rfl rfl)
    · exact sameNames_setMutex rfl rfl

theorem sameNames_skipDead {fuel p : ℕ} {reads : List ℕ} {r : ℕ × Machine}
    (h : skipDead key fuel p s = some (reads, r)) : SameNames s r.2 := by
  induction fuel generalizing s p reads with
  | zero => simp [skipDead] at h
  | succ fuel ih =>
    unfold skipDead at h
    split_ifs at h
    · obtain ⟨⟨reads', r'⟩, hskip, he⟩ := Option.map_eq_some_iff.mp h
      obtain ⟨-, rfl⟩ := Prod.mk.inj he
      exact (sameNames_dequeueProcess key s).trans (ih hskip)
    · obtain ⟨-, rfl⟩ := Prod.mk.inj (Option.some.inj h)
      exact SameNames.refl s

theorem sameNames_dequeueAll (fuel : ℕ) (p : Option ℕ) :
    SameNames s (dequeueAll key fuel p s).2 := by
  induction fuel generalizing s p with
  | zero => exact SameNames.refl s
  | succ fuel ih =>
    unfold dequeueAll
    split_ifs
    · exact SameNames.refl s
    · exact (sameNames_dequeueProcess key s).trans (ih _)

theorem sameNames_yield (h : s.yield = some t) : SameNames s t := by
  obtain ⟨sched, -, rfl⟩ := Option.map_eq_some_iff.mp h
  exact SameNames.of_eq rfl

theorem sameNames_mutexLock {node : ℕ} {r : ℤ × Machine} (h : mutexLock key node s = some r) :
    SameNames s r.2 := by
  have htaken : SameNames s ((setSuperlock s).setLocked key locked) :=
    (SameNames.of_eq rfl).trans (sameNames_setLocked (setSuperlock s) key locked)
  unfold mutexLock at h
  dsimp only at h
  split_ifs at h
  · obtain ⟨u, hu, rfl⟩ := Option.map_eq_some_iff.mp h
    have hqueued := htaken.trans (sameNames_queueProcess key node s.sched.current _)
    refine SameNames.trans ?_ (sameNames_yield hu)
    exact hqueued.trans (SameNames.of_eq rfl)
  · rw [← Option.some.inj h]
    exact htaken.trans (SameNames.of_eq rfl)
  · rw [← Option.some.inj h]
    exact SameNames.refl s

theorem sameNames_mutexUnlock {u : Unlock} (h : mutexUnlock key s = some u) :
    SameNames s u.after := by
  by_cases hopen : isOpen key s
  · rw [mutexUnlock_eq hopen] at h
    obtain ⟨⟨reads, p, t⟩, hskip, rfl⟩ := Option.map_eq_some_iff.mp h
    have ht : SameNames s t := ((SameNames.of_eq rfl).trans
      (sameNames_dequeueProcess key (setSuperlock s))).trans (sameNames_skipDead hskip)
    have hfree := ht.trans (sameNames_setLocked t key unlocked)
    dsimp only
    split_ifs
    · exact (hfree.trans ((SameNames.of_eq rfl).trans (sameNames_setLocked _ key locked))).trans
        (SameNames.of_eq rfl)
    · exact hfree.trans (SameNames.of_eq rfl)
  · rw [mutexUnlock, if_neg hopen] at h
    rw [← Option.some.inj h]
    exact SameNames.refl s

/-! ### `mutex_open` and `mutex_close` -/

theorem sameNames_lockArray (h : lockArray s = some t) : SameNames s t := by
  unfold lockArray at h
  split_ifs at h
  rw [← Option.some.inj h]
  exact SameNames.of_eq rfl

/-- The loop of `mutex_open` is the search in the table of the open names. -/
theorem search_mutexNames (name : List ℤ) (s : Machine) : (firstIndex maxMutexes fun k =>
    !isOpen k s || strcmp name (s.openMutexes k).name = 0) =
      slot maxMutexes (mutexNames s) name := by
  unfold slot
  congr 1
  funext k
  unfold mutexNames
  cases isOpen k s
  · simp
  · simp [strcmp_eq_zero_iff, @eq_comm _ name]

theorem mutexNames_setMutex_open (hrange : 0 ≤ key ∧ key < maxMutexes) (name : List ℤ)
    (page : ℕ) : mutexNames (s.setMutex key (createNewMutex name page)) =
      Function.update (mutexNames s) key (some name) := by
  funext k
  by_cases hk : k = key
  · subst hk
    simp [mutexNames, isOpen, Machine.setMutex, createNewMutex, hrange]
  · simp [mutexNames, isOpen, Machine.setMutex, hk]

theorem mutexOpen_spec {name : List ℤ} {page : ℕ} {r : ℤ × Machine}
    (h : mutexOpen name page s = some r) :
    mutexNames r.2 = opened maxMutexes (mutexNames s) name ∧
      r.1 = (slot maxMutexes (mutexNames s) name).getD maxMutexOpenError := by
  obtain ⟨t, ht, rfl⟩ := Option.map_eq_some_iff.mp h
  have hsame := (sameNames_lockArray ht).mutexNames_eq
  rw [← hsame, search_mutexNames]
  unfold NameTable.opened
  cases hslot : slot maxMutexes (mutexNames t) name with
  | none => exact ⟨(SameNames.of_eq rfl).mutexNames_eq, rfl⟩
  | some k =>
    obtain ⟨h0, hlt, -⟩ := firstIndex_spec hslot
    dsimp only
    split_ifs with hopen
    · refine ⟨?_, rfl⟩
      have hk : mutexNames t k = some name :=
        (slot_cases hslot).resolve_left (by simp [mutexNames, hopen])
      rw [Function.update_eq_self_iff.mpr hk.symm]
      exact (SameNames.of_eq rfl).mutexNames_eq
    · refine ⟨?_, rfl⟩
      rw [← mutexNames_setMutex_open ⟨h0, hlt⟩ name page]
      exact (SameNames.of_eq rfl).mutexNames_eq

theorem mutexClose_names {garbage : ℤ} {r : ℤ × Machine} (h : mutexClose key garbage s = some r)
    (k : ℤ) (name : List ℤ) (hk : mutexNames r.2 k = some name) : mutexNames s k = some name := by
  obtain ⟨t, ht, rfl⟩ := Option.map_eq_some_iff.mp h
  have hlocked := sameNames_lockArray ht
  have hclose : ∀ u : Machine, SameNames t u → mutexNames (unlockArray
      (u.setMutex key { u.openMutexes key with state := closed })) k = some name →
      mutexNames t k = some name := by
    intro u hu hk
    by_cases hkey : k = key
    · subst hkey
      simp [mutexNames, isOpen, unlockArray, Machine.setMutex, closed, QueuedMutex.opened] at hk
    · rw [← hu.mutexNames_eq, ← hk]
      simp [mutexNames, isOpen, unlockArray, Machine.setMutex, hkey]
  rw [← hlocked.mutexNames_eq]
  dsimp only at hk
  split_ifs at hk
  · have hempty : SameNames t (dequeueAll key (t.waiting key).length none t).2 :=
      sameNames_dequeueAll _ none
    refine hclose _ ?_ hk
    split
    · exact hempty.trans (SameNames.of_eq rfl)
    · exact hempty.trans (SameNames.of_eq rfl)
  · rwa [(SameNames.of_eq (s := t) (t := unlockArray t) rfl).mutexNames_eq] at hk

/-- What a call of `mutex_open` owes: the names stay apart, and an open name is found. -/
def OpensRightly (names names' : ℤ → Option (List ℤ)) (name : List ℤ) (result : ℤ) : Prop :=
  Unique names' ∧ ∀ k, names k = some name → result = k

theorem opensRightly_iff {n : ℕ} {names : ℤ → Option (List ℤ)} (h : Unique names)
    (hrange : InRange n names) {name : List ℤ} {error : ℤ} (herror : error < 0) :
    OpensRightly names (opened n names name) name ((slot n names name).getD error) ↔
      Reached names name := by
  rw [← unique_opened_iff h hrange, OpensRightly]
  refine and_congr_right fun _ => forall_congr' fun k => forall_congr' fun hk => ?_
  cases hslot : slot n names name with
  | none =>
    have hk0 := (hrange k (by simp [hk])).1
    simp only [Option.getD_none, reduceCtorEq, iff_false]
    omega
  | some i => simp

theorem mutexStep_names {a : QueuedMutex.Action} (hopen : ∀ name page, a ≠ .mutexOpen name page)
    (ht : QueuedMutex.step s a = some t) (k : ℤ) (name : List ℤ)
    (hk : mutexNames t k = some name) : mutexNames s k = some name := by
  have hsame : SameNames s t → mutexNames s k = some name := fun h => by
    rwa [← h.mutexNames_eq]
  cases a with
  | createProcess page =>
    simp only [QueuedMutex.step] at ht
    split_ifs at ht
    rw [← Option.some.inj ht] at hsame
    exact hsame (SameNames.of_eq rfl)
  | removeProcess pid =>
    obtain ⟨sched, -, rfl⟩ := Option.map_eq_some_iff.mp ht
    exact hsame (SameNames.of_eq rfl)
  | changeProcessState pid state =>
    rw [← Option.some.inj ht] at hsame
    exact hsame (SameNames.of_eq rfl)
  | switch => exact hsame (sameNames_yield ht)
  | mutexOpen name page => exact absurd rfl (hopen name page)
  | mutexClose key garbage =>
    obtain ⟨r, hr, rfl⟩ := Option.map_eq_some_iff.mp ht
    exact mutexClose_names hr k name hk
  | mutexLock key node =>
    obtain ⟨r, hr, rfl⟩ := Option.map_eq_some_iff.mp ht
    exact hsame (sameNames_mutexLock hr)
  | mutexUnlock key =>
    obtain ⟨u, hu, rfl⟩ := Option.map_eq_some_iff.mp ht
    exact hsame (sameNames_mutexUnlock hu)

theorem unique_mutexStep {a : QueuedMutex.Action} (h : Unique (mutexNames s))
    (hok : MutexFinds s a) (ht : QueuedMutex.step s a = some t) : Unique (mutexNames t) := by
  by_cases hopen : ∃ name page, a = .mutexOpen name page
  · obtain ⟨name, page, rfl⟩ := hopen
    simp only [QueuedMutex.step] at ht
    split_ifs at ht
    obtain ⟨r, hr, rfl⟩ := Option.map_eq_some_iff.mp ht
    rw [(mutexOpen_spec hr).1]
    exact h.opened (inRange_mutexNames s) hok
  · exact h.mono (mutexStep_names (fun name page he => hopen ⟨name, page, he⟩) ht)

end

/-! ### Condition variables -/

section

variable {s t : Conds} {key : ℤ}

theorem inRange_condNames (s : Conds) : InRange maxCondVar (condNames s) := by
  intro k hk
  have hopen : condIsOpen k s := by simpa [condNames] using hk
  simp only [condIsOpen, decide_eq_true_eq] at hopen
  exact ⟨hopen.1, hopen.2.1⟩

theorem condNames_congr (h : t.openConds = s.openConds) : condNames t = condNames s := by
  funext k
  simp [condNames, condIsOpen, h]

theorem lockAtOnce_conds {node : ℕ} (h : lockAtOnce key node s = some t) :
    t.openConds = s.openConds := by
  unfold lockAtOnce at h
  split_ifs at h
  obtain ⟨r, -, rfl⟩ := Option.map_eq_some_iff.mp h
  rfl

theorem unlock_conds (h : unlock key s = some t) : t.openConds = s.openConds := by
  obtain ⟨u, -, rfl⟩ := Option.map_eq_some_iff.mp h
  rfl

/-- The loop of `cond_open` is the search in the table of the open names. -/
theorem search_condNames (name : List ℤ) (s : Conds) : (firstIndex maxCondVar fun k =>
    !condIsOpen k s || strcmp (s.openConds k).name name = 0) =
      slot maxCondVar (condNames s) name := by
  unfold slot
  congr 1
  funext k
  unfold condNames
  cases condIsOpen k s
  · simp
  · simp [strcmp_eq_zero_iff]

theorem createNewCond_names (hrange : 0 ≤ key ∧ key < maxCondVar) {name : List ℤ}
    {page queuePage : ℕ} (h : createNewCond key name page queuePage s = some t) :
    condNames t = Function.update (condNames s) key (some name) := by
  obtain ⟨r, -, rfl⟩ := Option.map_eq_some_iff.mp h
  funext k
  by_cases hk : k = key
  · subst hk
    simp [condNames, condIsOpen, Conds.setCond, hrange]
  · simp [condNames, condIsOpen, Conds.setCond, Conds.withMachine, hk]

theorem condOpen_spec {name : List ℤ} {node page queuePage : ℕ} {r : ℤ × Conds}
    (h : condOpen name node page queuePage s = some r) :
    condNames r.2 = opened maxCondVar (condNames s) name ∧
      r.1 = (slot maxCondVar (condNames s) name).getD maxCondOpenError := by
  unfold condOpen at h
  simp only [Option.bind_eq_bind, Option.bind_eq_some_iff] at h
  obtain ⟨u, hu, h⟩ := h
  rw [← condNames_congr (lockAtOnce_conds hu)]
  rw [search_condNames] at h
  unfold NameTable.opened
  cases hslot : slot maxCondVar (condNames u) name with
  | none =>
    rw [hslot] at h
    obtain ⟨t, ht, hr⟩ := Option.bind_eq_some_iff.mp h
    obtain rfl := Option.some.inj hr
    exact ⟨condNames_congr (unlock_conds ht), rfl⟩
  | some k =>
    rw [hslot] at h
    obtain ⟨h0, hlt, -⟩ := firstIndex_spec hslot
    dsimp only at h ⊢
    split_ifs at h with hopen
    · obtain ⟨t, ht, hr⟩ := Option.bind_eq_some_iff.mp h
      obtain rfl := Option.some.inj hr
      have hk : condNames u k = some name :=
        (slot_cases hslot).resolve_left (by simp [condNames, hopen])
      rw [Function.update_eq_self_iff.mpr hk.symm]
      exact ⟨condNames_congr (unlock_conds ht), rfl⟩
    · simp only [Option.bind_eq_some_iff] at h
      obtain ⟨v, hv, h⟩ := h
      obtain ⟨t, ht, hr⟩ := h
      obtain rfl := Option.some.inj hr
      rw [← createNewCond_names ⟨h0, hlt⟩ hv]
      exact ⟨condNames_congr (unlock_conds ht), rfl⟩

theorem condBroadcast_names {node : ℕ} {r : ℤ × Conds} (h : condBroadcast key node s = some r) :
    condNames r.2 = condNames s := by
  unfold condBroadcast at h
  split_ifs at h
  · simp only [Option.bind_eq_bind, Option.bind_eq_some_iff] at h
    obtain ⟨u, hu, h⟩ := h
    obtain ⟨t, ht, hr⟩ := h
    obtain rfl := Option.some.inj hr
    rw [condNames_congr (unlock_conds ht), ← condNames_congr (lockAtOnce_conds hu)]
    have hsame := lockAtOnce_conds hu
    funext k
    by_cases hk : k = key
    · subst hk
      simp [condNames, condIsOpen, Conds.setCond, emptied, hsame]
    · simp [condNames, condIsOpen, Conds.setCond, Conds.withMachine, hk]
  · rw [← Option.some.inj h]

theorem condClose_names {node : ℕ} {garbage : ℤ} {r : ℤ × Conds}
    (h : condClose key node garbage s = some r) (k : ℤ) (name : List ℤ)
    (hk : condNames r.2 k = some name) : condNames s k = some name := by
  unfold condClose at h
  split_ifs at h
  · simp only [Option.bind_eq_bind, Option.bind_eq_some_iff] at h
    obtain ⟨⟨x, u⟩, hu, h⟩ := h
    obtain ⟨⟨y, m⟩, -, h⟩ := h
    rw [← condBroadcast_names hu]
    obtain rfl := Option.some.inj h
    by_cases hkey : k = key
    · subst hkey
      simp [condNames, condIsOpen, Conds.setCond, closed, QueuedMutex.opened] at hk
    · simpa [condNames, condIsOpen, Conds.setCond, Conds.withMachine, hkey] using hk
  · rwa [← Option.some.inj h] at hk

theorem unique_condStep {a : Cond.Action} (h : Unique (condNames s)) (hok : CondFinds s a)
    (ht : Cond.step s a = some t) : Unique (condNames t) := by
  cases a with
  | initializeConds page =>
    obtain ⟨r, -, rfl⟩ := Option.map_eq_some_iff.mp ht
    exact (condNames_congr (s := s) rfl).symm ▸ h
  | condOpen name node page queuePage =>
    simp only [Cond.step] at ht
    split_ifs at ht
    obtain ⟨r, hr, rfl⟩ := Option.map_eq_some_iff.mp ht
    rw [(condOpen_spec hr).1]
    exact h.opened (inRange_condNames s) hok
  | condBroadcast key node =>
    obtain ⟨r, hr, rfl⟩ := Option.map_eq_some_iff.mp ht
    rwa [condBroadcast_names hr]
  | condClose key node garbage =>
    obtain ⟨r, hr, rfl⟩ := Option.map_eq_some_iff.mp ht
    exact h.mono (condClose_names hr)
  | mutex a =>
    obtain ⟨m, -, rfl⟩ := Option.map_eq_some_iff.mp ht
    exact (condNames_congr (s := s) rfl).symm ▸ h

end

/-! ### Runs -/

theorem unique_mutexNames {s : Machine} (hs : (mutexSystem.restrict MutexFinds).Reachable s) :
    Unique (mutexNames s) := by
  refine hs.invariant (I := fun s => Unique (mutexNames s)) (fun s hs => ?_) ?_
  · obtain ⟨slot, page, -, rfl⟩ := hs
    intro i j name hi
    simp [mutexNames, isOpen, QueuedMutex.boot, QueuedMutex.opened] at hi
  · rintro s a t h ⟨hok, hstep⟩
    exact unique_mutexStep h hok hstep

theorem unique_condNames {s : Conds} (hs : (condSystem.restrict CondFinds).Reachable s) :
    Unique (condNames s) := by
  refine hs.invariant (I := fun s => Unique (condNames s)) (fun s hs => ?_) ?_
  · obtain ⟨-, hconds, -⟩ := hs
    intro i j name hi
    simp [condNames, condIsOpen, hconds, QueuedMutex.opened] at hi
  · rintro s a t h ⟨hok, hstep⟩
    exact unique_condStep h hok hstep

/-- In runs in which the searches meet no closed entry in front of the name, each name is open once
and its key is found; the next call of `mutex_open` or `cond_open` is right just when its search
meets none. -/
theorem shared_by_name (m : Machine) (c : Conds) :
    ((mutexSystem.restrict MutexFinds).Reachable m → Unique (mutexNames m) ∧
      ∀ name page r, mutexOpen name page m = some r →
        (OpensRightly (mutexNames m) (mutexNames r.2) name r.1 ↔ Reached (mutexNames m) name)) ∧
    ((condSystem.restrict CondFinds).Reachable c → Unique (condNames c) ∧
      ∀ name node page queuePage r, condOpen name node page queuePage c = some r →
        (OpensRightly (condNames c) (condNames r.2) name r.1 ↔ Reached (condNames c) name)) := by
  constructor
  · intro hm
    have hunique := unique_mutexNames hm
    refine ⟨hunique, fun name page r hr => ?_⟩
    obtain ⟨hnames, hresult⟩ := mutexOpen_spec hr
    rw [hnames, hresult]
    exact opensRightly_iff hunique (inRange_mutexNames m) (by decide)
  · intro hc
    have hunique := unique_condNames hc
    refine ⟨hunique, fun name node page queuePage r hr => ?_⟩
    obtain ⟨hnames, hresult⟩ := condOpen_spec hr
    rw [hnames, hresult]
    exact opensRightly_iff hunique (inRange_condNames c) (by decide)

instance (s : Machine) (name : List ℤ) : Decidable (Reached (mutexNames s) name) :=
  decidable_of_iff' _ (reached_iff (inRange_mutexNames s))

instance (s : Conds) (name : List ℤ) : Decidable (Reached (condNames s) name) :=
  decidable_of_iff' _ (reached_iff (inRange_condNames s))

instance (s : Machine) (a : QueuedMutex.Action) : Decidable (MutexFinds s a) :=
  match a with
  | .mutexOpen name _ => inferInstanceAs (Decidable (Reached (mutexNames s) name))
  | .createProcess _ | .removeProcess _ | .changeProcessState _ _ | .switch | .mutexClose _ _
  | .mutexLock _ _ | .mutexUnlock _ => inferInstanceAs (Decidable True)

instance (s : Conds) (a : Cond.Action) : Decidable (CondFinds s a) :=
  match a with
  | .condOpen name _ _ _ => inferInstanceAs (Decidable (Reached (condNames s) name))
  | .initializeConds _ | .condBroadcast _ _ | .condClose _ _ _ | .mutex _ =>
    inferInstanceAs (Decidable True)

def startedConds : Conds := ⟨started, fun _ => ⟨[], 0, 0, none⟩, 0⟩

theorem isStart_startedConds : Cond.IsStart startedConds := ⟨isStart_started, fun _ => rfl, rfl⟩

/-- Closing the last entry hides nothing. -/
theorem shared_by_name_closed :
    (∃ s, mutexNames s 0 = some [65] ∧ mutexNames s 1 = some [67] ∧ Unique (mutexNames s)) ∧
    ∃ s, condNames s 0 = some [65] ∧ condNames s 1 = some [67] ∧ Unique (condNames s) := by
  constructor
  · obtain ⟨s, hs, hview⟩ := reachable_restrict_of_execute QueuedMutex.IsStart isStart_started
      (show (execute (guarded (fun s a => MutexFinds s a) QueuedMutex.step) started
        [.mutexOpen [65] (pageAt 1), .mutexOpen [66] (pageAt 2), .mutexClose 1 7,
          .mutexOpen [67] (pageAt 2), .mutexOpen [65] (pageAt 3)]).map
          (fun s => (mutexNames s 0, mutexNames s 1)) = some (some [65], some [67]) by
        decide +kernel)
    simp only [Prod.mk.injEq] at hview
    exact ⟨s, hview.1, hview.2, ((shared_by_name s startedConds).1 hs).1⟩
  · obtain ⟨s, hs, hview⟩ := reachable_restrict_of_execute Cond.IsStart isStart_startedConds
      (show (execute (guarded (fun s a => CondFinds s a) Cond.step) startedConds
        [.initializeConds (pageAt 1), .condOpen [65] 0 (pageAt 2) (pageAt 3),
          .condOpen [66] 0 (pageAt 4) (pageAt 5), .condClose 1 0 7,
          .condOpen [67] 0 (pageAt 4) (pageAt 5), .condOpen [65] 0 (pageAt 6) (pageAt 7)]).map
          (fun s => (condNames s 0, condNames s 1)) = some (some [65], some [67]) by
        decide +kernel)
    simp only [Prod.mk.injEq] at hview
    exact ⟨s, hview.1, hview.2, ((shared_by_name started s).2 hs).1⟩

/-- "B" is open under the key 1 and is opened again under the key 0, where "A" was closed. -/
theorem opened_twice :
    (∃ s r, mutexSystem.Reachable s ∧ mutexNames s 1 = some [66] ∧
      mutexOpen [66] (pageAt 3) s = some r ∧ r.1 = 0 ∧ ¬ Unique (mutexNames r.2)) ∧
    ∃ s r, condSystem.Reachable s ∧ condNames s 1 = some [66] ∧
      condOpen [66] 0 (pageAt 6) (pageAt 7) s = some r ∧ r.1 = 0 ∧ ¬ Unique (condNames r.2) := by
  constructor
  · obtain ⟨s, hpath, hview⟩ := exists_path_of_execute QueuedMutex.IsStart
      (show (execute QueuedMutex.step started [.mutexOpen [65] (pageAt 1),
        .mutexOpen [66] (pageAt 2), .mutexClose 0 7]).map (fun s => (mutexNames s 1,
          (mutexOpen [66] (pageAt 3) s).map fun r =>
            decide (r.1 = 0 ∧ mutexNames r.2 0 = some [66] ∧ mutexNames r.2 1 = some [66]))) =
        some (some [66], some true) by decide +kernel)
    simp only [Prod.mk.injEq] at hview
    obtain ⟨hname, hopen⟩ := hview
    obtain ⟨r, hr, hview⟩ := Option.map_eq_some_iff.mp hopen
    rw [decide_eq_true_iff] at hview
    refine ⟨s, r, hpath.reachable (System.Reachable.start isStart_started), hname, hr, hview.1,
      fun hunique => ?_⟩
    exact absurd (hunique 0 1 [66] hview.2.1 hview.2.2) (by decide)
  · obtain ⟨s, hpath, hview⟩ := exists_path_of_execute Cond.IsStart
      (show (execute Cond.step startedConds [.initializeConds (pageAt 1),
        .condOpen [65] 0 (pageAt 2) (pageAt 3), .condOpen [66] 0 (pageAt 4) (pageAt 5),
        .condClose 0 0 7]).map (fun s => (condNames s 1,
          (condOpen [66] 0 (pageAt 6) (pageAt 7) s).map fun r =>
            decide (r.1 = 0 ∧ condNames r.2 0 = some [66] ∧ condNames r.2 1 = some [66]))) =
        some (some [66], some true) by decide +kernel)
    simp only [Prod.mk.injEq] at hview
    obtain ⟨hname, hopen⟩ := hview
    obtain ⟨r, hr, hview⟩ := Option.map_eq_some_iff.mp hopen
    rw [decide_eq_true_iff] at hview
    refine ⟨s, r, hpath.reachable (System.Reachable.start isStart_startedConds), hname, hr,
      hview.1, fun hunique => ?_⟩
    exact absurd (hunique 0 1 [66] hview.2.1 hview.2.2) (by decide)

end GatOS.NamedObjects
