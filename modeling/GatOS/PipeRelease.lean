import GatOS.AdminSlot
import GatOS.MutexFrame
import GatOS.PipeAdmin

/-!
# The lock of the administration of pipes

Without `initializePipes` the number in `ipcAdminMutex` is that of `adminMutex`, which `getMutex`
locks once more. The only pipe calls that leave the mutex free are those that find what they look
for, and the calls of `createPipe` that waited for a mutex which others have freed twice.
-/
namespace GatOS.PipeAdmin
open Scheduler Sync IPC Transition ByteMemory

/-- The tables and what the processes keep for their pipes are the same. -/
structure SameTables (s t : Admin) : Prop where
  pipeNames : t.pipeNames = s.pipeNames
  pipes : t.pipes = s.pipes
  lastPipeName : t.lastPipeName = s.lastPipeName
  owner : t.owner = s.owner

/-- What a call owes: its process does not wait for a mutex that it has, it does not leave with
`ipcAdminMutex`, and when it fails the tables are as before. -/
def Released (s t : Admin) : Outcome → Prop
  | .suspended mutex => s.pid ∉ t.holders mutex
  | .returned none => s.pid ∉ t.holders t.ipcAdminMutex ∧ SameTables s t
  | .returned (some _) => s.pid ∉ t.holders t.ipcAdminMutex
  | .fault => False

/-- The first entry with the name belongs to a pipe. -/
def Registered (s : Admin) (name : ℕ) : Prop :=
  ∃ i, s.getPipeNameIndex name = some i ∧ s.pipes i ≠ none

/-- There is a place in the tables and one among the pipes of the process. -/
def HasRoom (s : Admin) (name : ℕ) : Prop :=
  0 ≤ s.lastPipeName ∧
  (s.lastPipeName < maxPipes ∧ s.pipeNames s.lastPipeName = null ∨
    ∃ i : ℤ, 0 ≤ i ∧ i < maxPipes ∧ s.pipeNames i = null) ∧
  name ≠ null ∧ s.kernel.sched.cardinalProcesses ≠ 0 ∧
  ((s.owner s.pid).pipesOpened ≤ maxProcessPipes ∧
      (s.owner s.pid).occupiedPosition (s.owner s.pid).pipesOpened ≠ 1 ∨
    ∃ i : ℤ, 0 ≤ i ∧ i < maxProcessPipes ∧ (s.owner s.pid).occupiedPosition i = 0)

/-- When `createPipe` comes to its end: it has a pipe, and the place that it found before it was
suspended is still inside the table. -/
def Ends (s : Admin) (index : Option ℤ) : Prop :=
  index ≠ none ∧ 0 ≤ s.lastPipeName ∧ s.lastPipeName < maxPipes

/-- When the rest of a suspended call does what it owes. -/
def AdminRest.Releases (s : Admin) : AdminRest → Prop
  | .openPipe name => s.pid ∉ s.holders s.ipcAdminMutex ∧ Registered s name
  | .createPipe name => s.pid ∉ s.holders s.ipcAdminMutex ∧
      passes s.kernel.adminMutex s.kernel = true ∧ HasRoom s name
  | .createPipeEnd _ index => s.pid ∉ (s.holders s.ipcAdminMutex).erase s.pid ∧ Ends s index

/-- When a call does what it owes. A new call of `createPipe` has to wait for the mutex: behind
it `getMutex` waits for the same one. -/
def Releases (s : Admin) : PipeCall → Prop
  | .openPipe name _ => s.pid ∉ s.holders s.ipcAdminMutex ∧
      (passes s.ipcAdminMutex s.kernel = true → Registered s name)
  | .createPipe _ _ => s.pid ∉ s.holders s.ipcAdminMutex ∧ passes s.ipcAdminMutex s.kernel = false
  | .closePipe _ => True
  | .resume _ => ∀ rest, s.rest s.pid = some rest → rest.Releases s

/-- Both administrations have the first mutex, which stays in use. -/
structure AdminLocks (s : Admin) : Prop where
  ipc : s.ipcAdminMutex = 0
  slot : AdminSlot s.kernel

/-- A step keeps the numbers of the mutexes and the mutexes that are in use. -/
structure Kept (s t : Admin) : Prop where
  ipc : t.ipcAdminMutex = s.ipcAdminMutex
  slots : SlotsKept s.kernel t.kernel

section

variable {s t u v : Admin} {mutex garbage : ℤ} {name : ℕ} {o : Outcome}

theorem SameTables.refl (s : Admin) : SameTables s s := ⟨rfl, rfl, rfl, rfl⟩

theorem SameTables.trans (h : SameTables s t) (g : SameTables t u) : SameTables s u :=
  ⟨g.pipeNames.trans h.pipeNames, g.pipes.trans h.pipes, g.lastPipeName.trans h.lastPipeName,
    g.owner.trans h.owner⟩

theorem Kept.refl (s : Admin) : Kept s s := ⟨rfl, SlotsKept.refl _⟩

theorem Kept.trans (h : Kept s t) (g : Kept t u) : Kept s u :=
  ⟨g.ipc.trans h.ipc, h.slots.trans g.slots⟩

theorem Kept.of_sync (hsync : t.sync = s.sync) (hipc : t.ipcAdminMutex = s.ipcAdminMutex) :
    Kept s t := by
  refine ⟨hipc, ?_⟩
  rw [Admin.kernel, Admin.kernel, hsync]
  exact SlotsKept.refl _

theorem AdminLocks.kept (h : AdminLocks s) (hkept : Kept s t) : AdminLocks t :=
  ⟨hkept.ipc.trans h.ipc, h.slot.kept hkept.slots⟩

theorem AdminLocks.admin (h : AdminLocks s) : s.kernel.adminMutex = s.ipcAdminMutex :=
  h.slot.admin.trans h.ipc.symm

theorem AdminLocks.valid (h : AdminLocks s) : isValidMutex s.ipcAdminMutex s.kernel = true := by
  rw [h.ipc, isValidMutex, if_neg (by decide)]
  exact h.slot.used

/-! ### The processor -/

theorem changeProcessStateLoop_current (pid : ℤ) (state : ProcessState) (n slot : ℕ) (k : State) :
    getCurrentPid (changeProcessStateLoop pid state n slot k) = getCurrentPid k := by
  induction n generalizing slot with
  | zero => rfl
  | succ n ih =>
    rw [changeProcessStateLoop]
    split_ifs with hpid
    · rw [getCurrentPid, getCurrentPid, setState_current, setState_processOf_pid]
    · exact ih _

/-- A process that frees a mutex keeps the processor. -/
theorem freeMutex_pid {k k' : Kernel} (h : freeMutex mutex k = some k') : k'.pid = k.pid := by
  rcases (freeMutex_sched h).2 with hs | ⟨p, hs⟩
  · rw [Kernel.pid, hs, Kernel.pid]
  · rw [Kernel.pid, hs, Kernel.pid]
    exact changeProcessStateLoop_current _ _ _ _ _

theorem getMutexRest_pid {k k' : Kernel} {i : ℤ} (h : getMutexRest name k = some (i, k')) :
    k'.pid = k.pid := by
  rcases getMutexRest_cases h with ⟨-, hfree⟩ | ⟨-, -, -, hfree⟩ | ⟨-, -, hfree⟩
  · exact freeMutex_pid hfree
  · exact freeMutex_pid hfree
  · exact (freeMutex_pid hfree).trans rfl

/-! ### Locking and freeing -/

/-- The word that `testAndSet` has written is not zero. -/
theorem testAndSet_again {m : Mutex} (h : (testAndSet m).1 = true) :
    (testAndSet (testAndSet m).2).1 = false := by
  unfold testAndSet at h ⊢
  split_ifs at h with hfree
  simp [hfree]

/-- A mutex that has just been locked does not pass. -/
theorem not_passes_of_lockMutex {k k' : Kernel} (hvalid : isValidMutex mutex k = true)
    (h : lockMutex mutex garbage k = some (true, k')) :
    k'.pid = k.pid ∧ passes mutex k' = false := by
  unfold lockMutex at h
  dsimp only at h
  split_ifs at h with hneg hlock hfull
  · obtain ⟨-, rfl⟩ := Prod.mk.inj (Option.some.inj h)
    refine ⟨rfl, ?_⟩
    have hused : (testAndSet (k.mutexes mutex)).2.used = (k.mutexes mutex).used := by
      unfold testAndSet
      split_ifs <;> rfl
    have hslot : isValidMutex mutex (k.setMutex mutex (testAndSet (k.mutexes mutex)).2) = true := by
      rw [isValidMutex, Kernel.setMutex_self, hused]
      exact hvalid
    rw [passes, hslot, Kernel.setMutex_self, testAndSet_again hlock]
    rfl
  · obtain ⟨k₁, -, hpair⟩ := Option.map_eq_some_iff.mp h
    exact absurd (Prod.mk.inj hpair).1 (by simp)
  · obtain ⟨k₁, -, hpair⟩ := Option.map_eq_some_iff.mp h
    exact absurd (Prod.mk.inj hpair).1 (by simp)

theorem lock_kept {rest : AdminRest} {returned : Bool}
    (h : s.lock mutex garbage rest = some (returned, t)) :
    Kept s t ∧ SameTables s t ∧ t.kernel.strings = s.kernel.strings := by
  obtain ⟨⟨b, k⟩, hk, hpair⟩ := Option.map_eq_some_iff.mp h
  have hslots := slotsKept_lockMutex hk
  have hstrings := (lockMutex_sched hk).1
  cases b with
  | true =>
    obtain ⟨-, rfl⟩ := Prod.mk.inj hpair
    exact ⟨⟨rfl, hslots⟩, ⟨rfl, rfl, rfl, rfl⟩, hstrings⟩
  | false =>
    obtain ⟨-, rfl⟩ := Prod.mk.inj hpair
    exact ⟨⟨rfl, hslots⟩, ⟨rfl, rfl, rfl, rfl⟩, hstrings⟩

/-- The caller holds the mutex and nobody passes it any more, or the call is suspended. -/
theorem lock_spec (hvalid : isValidMutex mutex s.kernel = true) {rest : AdminRest} {returned : Bool}
    (h : s.lock mutex garbage rest = some (returned, t)) :
    passes mutex s.kernel = returned ∧
      (returned = true → t.pid = s.pid ∧ t.holders mutex = s.pid :: s.holders mutex ∧
        passes mutex t.kernel = false) ∧
      (returned = false → t.holders mutex = s.holders mutex) := by
  obtain ⟨⟨b, k⟩, hk, hpair⟩ := Option.map_eq_some_iff.mp h
  have hpasses := lockMutex_passes hk
  cases b with
  | true =>
    obtain ⟨rfl, rfl⟩ := Prod.mk.inj hpair
    obtain ⟨hpid, hlocked⟩ := not_passes_of_lockMutex hvalid hk
    refine ⟨hpasses, fun _ => ⟨hpid, ?_, hlocked⟩, fun h => absurd h (by simp)⟩
    show (if isValidMutex mutex s.kernel then s.sync.ledger.hold mutex s.pid
      else s.sync.ledger).holders mutex = s.pid :: s.holders mutex
    rw [if_pos hvalid]
    exact hold_self _ _
  | false =>
    obtain ⟨rfl, rfl⟩ := Prod.mk.inj hpair
    exact ⟨hpasses, fun h => absurd h (by simp), fun _ => rfl⟩

theorem free_spec (h : s.free mutex = some t) :
    Kept s t ∧ SameTables s t ∧ t.holders mutex = (s.holders mutex).erase s.pid ∧
      t.pid = s.pid := by
  obtain ⟨sync, hsync, rfl⟩ := Option.map_eq_some_iff.mp h
  obtain ⟨k, hk, rfl⟩ := Option.map_eq_some_iff.mp hsync
  refine ⟨⟨rfl, slotsKept_freeMutex hk⟩, ⟨rfl, rfl, rfl, rfl⟩, ?_, freeMutex_pid hk⟩
  exact release_self _ _

/-! ### The calls -/

/-- A process that has the mutex and does not go on waiting for another one. -/
theorem not_released (hmem : s.pid ∈ t.holders t.ipcAdminMutex)
    (ho : ∀ m, o = .suspended m → m = t.ipcAdminMutex) : ¬ Released s t o := by
  intro h
  match o with
  | .suspended m =>
    obtain rfl := ho m rfl
    exact h hmem
  | .returned none => exact h.1 hmem
  | .returned (some _) => exact h hmem
  | .fault => exact h

/-- A call that begins with the mutex is suspended there, or goes on and keeps it locked. -/
theorem lockThen_spec (hl : AdminLocks s) {rest : AdminRest}
    {proceed : Admin → Option (Outcome × Admin)}
    (h : s.lockThen s.ipcAdminMutex garbage rest proceed = some (o, t)) :
    (passes s.ipcAdminMutex s.kernel = false ∧ o = .suspended s.ipcAdminMutex ∧ Kept s t ∧
      t.holders s.ipcAdminMutex = s.holders s.ipcAdminMutex) ∨
    (passes s.ipcAdminMutex s.kernel = true ∧ ∃ u, Kept s u ∧ SameTables s u ∧
      u.kernel.strings = s.kernel.strings ∧ u.pid = s.pid ∧
      u.holders s.ipcAdminMutex = s.pid :: s.holders s.ipcAdminMutex ∧
      passes s.ipcAdminMutex u.kernel = false ∧ proceed u = some (o, t)) := by
  obtain ⟨⟨returned, u⟩, hlock, hrest⟩ := Option.bind_eq_some_iff.mp h
  obtain ⟨hkept, htables, hstrings⟩ := lock_kept hlock
  obtain ⟨hpasses, htrue, hfalse⟩ := lock_spec hl.valid hlock
  cases returned with
  | true =>
    obtain ⟨hpid, hholders, hlocked⟩ := htrue rfl
    exact Or.inr ⟨hpasses, u, hkept, htables, hstrings, hpid, hholders, hlocked, hrest⟩
  | false =>
    obtain ⟨rfl, rfl⟩ := Prod.mk.inj (Option.some.inj hrest)
    exact Or.inl ⟨hpasses, rfl, hkept, hfalse rfl⟩

theorem registered_congr (h : SameTables s t) (hstrings : t.kernel.strings = s.kernel.strings) :
    Registered t name ↔ Registered s name := by
  rw [Registered, Registered, Admin.getPipeNameIndex, Admin.getPipeNameIndex, h.pipeNames, h.pipes,
    hstrings]

theorem openPipeRest_spec (h : s.openPipeRest name = some (o, t)) :
    (Registered s name ∧ Kept s t ∧ (∃ pipe, o = .returned (some pipe)) ∧
      t.holders s.ipcAdminMutex = (s.holders s.ipcAdminMutex).erase s.pid) ∨
    (¬ Registered s name ∧ t = s ∧ (o = .returned none ∨ o = .fault)) := by
  unfold Admin.openPipeRest at h
  split at h
  · next hindex =>
    obtain ⟨rfl, rfl⟩ := Prod.mk.inj (Option.some.inj h)
    refine Or.inr ⟨?_, rfl, Or.inl rfl⟩
    rintro ⟨i, hi, -⟩
    simp [hindex] at hi
  · next i hindex =>
    split at h
    · next hpipe =>
      obtain ⟨rfl, rfl⟩ := Prod.mk.inj (Option.some.inj h)
      refine Or.inr ⟨?_, rfl, Or.inr rfl⟩
      rintro ⟨j, hj, hp⟩
      obtain rfl : i = j := Option.some.inj (hindex.symm.trans hj)
      exact hp hpipe
    · next pipe hpipe =>
      obtain ⟨u, hfree, hpair⟩ := Option.map_eq_some_iff.mp h
      obtain ⟨rfl, rfl⟩ := Prod.mk.inj hpair
      obtain ⟨hkept, -, hholders, -⟩ := free_spec hfree
      refine Or.inl ⟨⟨i, hindex, by simp [hpipe]⟩, ⟨hkept.ipc, hkept.slots⟩, ⟨pipe, rfl⟩, ?_⟩
      exact hholders

/-- The place of the next pipe. -/
def nextPlace (s : Admin) : ℤ :=
  if s.lastPipeName ≥ maxPipes ∨ s.pipeNames s.lastPipeName ≠ null then s.getMiddleSpace
  else s.lastPipeName

theorem nextPlace_spec (h : 0 ≤ s.lastPipeName) :
    (nextPlace s = noSpaceLeft ∧ ¬ (s.lastPipeName < maxPipes ∧
        s.pipeNames s.lastPipeName = null ∨
      ∃ i : ℤ, 0 ≤ i ∧ i < maxPipes ∧ s.pipeNames i = null)) ∨
    (0 ≤ nextPlace s ∧ nextPlace s < maxPipes ∧ (s.lastPipeName < maxPipes ∧
        s.pipeNames s.lastPipeName = null ∨
      ∃ i : ℤ, 0 ≤ i ∧ i < maxPipes ∧ s.pipeNames i = null)) := by
  unfold nextPlace
  split_ifs with hused
  · have hnot : ¬ (s.lastPipeName < maxPipes ∧ s.pipeNames s.lastPipeName = null) := fun hn => by
      rcases hused with hlt | hname
      · omega
      · exact hname hn.2
    unfold Admin.getMiddleSpace
    cases hspace : firstIndex maxPipes fun i => s.pipeNames i = null with
    | none =>
      refine Or.inl ⟨rfl, ?_⟩
      rintro (hn | ⟨i, h0, hlt, hname⟩)
      · exact hnot hn
      · have hsome : (firstIndex maxPipes fun i => s.pipeNames i = null).isSome :=
          firstIndex_isSome.mpr ⟨i, h0, hlt, decide_eq_true hname⟩
        simp [hspace] at hsome
    | some i =>
      obtain ⟨h0, hlt, hname⟩ := firstIndex_spec hspace
      exact Or.inr ⟨h0, hlt, Or.inr ⟨i, h0, hlt, of_decide_eq_true hname⟩⟩
  · push Not at hused
    exact Or.inr ⟨h, hused.1, Or.inl hused⟩

theorem createPipeStruct_isSome {pid : ℤ} {pro : Owner} :
    (PipeAdmin.createPipeStruct pid name pro).isSome ↔
      (pro.pipesOpened ≤ maxProcessPipes ∧ pro.occupiedPosition pro.pipesOpened ≠ 1 ∨
        ∃ i : ℤ, 0 ≤ i ∧ i < maxProcessPipes ∧ pro.occupiedPosition i = 0) := by
  rw [PipeAdmin.createPipeStruct, Option.isSome_map, getIndexForPipeStructure]
  split_ifs with hused
  · rw [Option.isSome_map, firstIndex_isSome]
    have hnot : ¬ (pro.pipesOpened ≤ maxProcessPipes ∧
        pro.occupiedPosition pro.pipesOpened ≠ 1) := by omega
    simp only [hnot, false_or, decide_eq_true_eq]
  · push Not at hused
    simp [hused]

/-- What `createPipe` has found in front of `getMutex`. -/
theorem createPipeStart_spec {start : Admin.Start} (h : s.createPipeStart name = (start, t)) :
    t.sync = s.sync ∧ t.ipcAdminMutex = s.ipcAdminMutex ∧
      ((HasRoom s name ∧ ∃ i, start = .getMutex (some i)) ∨
        (¬ HasRoom s name ∧ ∀ i, start ≠ .getMutex (some i))) ∧
      (∀ index, start = .getMutex index → 0 ≤ t.lastPipeName ∧ t.lastPipeName < maxPipes) := by
  by_cases hlast : s.lastPipeName < 0
  · rw [Admin.createPipeStart, if_pos hlast] at h
    obtain ⟨rfl, rfl⟩ := Prod.mk.inj h
    refine ⟨rfl, rfl, Or.inr ⟨fun hroom => absurd hroom.1 (not_le.mpr hlast), ?_⟩, ?_⟩
    · exact fun i hi => nomatch hi
    · exact fun i hi => nomatch hi
  · have hs : (if s.lastPipeName ≥ maxPipes ∨ s.pipeNames s.lastPipeName ≠ null then
        { s with lastPipeName := s.getMiddleSpace } else s) =
          { s with lastPipeName := nextPlace s } := by
      unfold nextPlace
      split_ifs <;> rfl
    rw [Admin.createPipeStart, if_neg hlast] at h
    dsimp only at h
    rw [hs] at h
    rcases nextPlace_spec (not_lt.mp hlast) with ⟨hplace, hnone⟩ | ⟨h0, hlt, hsome⟩
    · rw [if_pos hplace] at h
      obtain ⟨rfl, rfl⟩ := Prod.mk.inj h
      refine ⟨rfl, rfl, Or.inr ⟨fun hroom => hnone hroom.2.1, ?_⟩, ?_⟩
      · exact fun i hi => nomatch hi
      · exact fun i hi => nomatch hi
    · have hplace : nextPlace s ≠ noSpaceLeft := fun he => absurd (he ▸ h0) (by decide)
      rw [if_neg hplace] at h
      split_ifs at h with hname
      · obtain ⟨rfl, rfl⟩ := Prod.mk.inj h
        refine ⟨rfl, rfl, Or.inr ⟨fun hroom => hroom.2.2.1 hname, ?_⟩, ?_⟩
        · exact fun i hi => nomatch hi
        · exact fun i hi => nomatch hi
      · by_cases hcard : s.kernel.sched.cardinalProcesses = 0
        · have hproc : Admin.getProcessById { s with lastPipeName := nextPlace s } = none :=
            if_pos hcard
          rw [hproc] at h
          obtain ⟨rfl, rfl⟩ := Prod.mk.inj h
          refine ⟨rfl, rfl, Or.inr ⟨fun hroom => hroom.2.2.2.1 hcard, ?_⟩, ?_⟩
          · exact fun i hi => nomatch hi
          · exact fun i hi => nomatch hi
        · have hproc : Admin.getProcessById { s with lastPipeName := nextPlace s } = some s.pid :=
            if_neg hcard
          rw [hproc] at h
          have hstruct := @createPipeStruct_isSome name s.pid (s.owner s.pid)
          dsimp only at h
          split at h
          · next hnone =>
            obtain ⟨rfl, rfl⟩ := Prod.mk.inj h
            rw [hnone] at hstruct
            refine ⟨rfl, rfl, Or.inr ⟨fun hroom => ?_, ?_⟩, fun _ _ => ⟨h0, hlt⟩⟩
            · exact absurd (hstruct.mpr hroom.2.2.2.2) (by simp)
            · exact fun i hi => by simp at hi
          · next index pro hfound =>
            obtain ⟨rfl, rfl⟩ := Prod.mk.inj h
            rw [hfound] at hstruct
            refine ⟨rfl, rfl, Or.inl ⟨?_, index, rfl⟩, fun _ _ => ⟨h0, hlt⟩⟩
            exact ⟨not_lt.mp hlast, hsome, hname, hcard, hstruct.mp rfl⟩

/-- `getMutex` frees the mutex once and `createPipe` frees it a second time. -/
theorem createPipeEnd_spec (hl : AdminLocks s) {index : Option ℤ}
    (h : s.createPipeEnd name index = some (o, t)) :
    (Ends s index ∧ Kept s t ∧ (∃ pipe, o = .returned (some pipe)) ∧
      t.holders s.ipcAdminMutex = ((s.holders s.ipcAdminMutex).erase s.pid).erase s.pid) ∨
    (¬ Ends s index ∧ o = .fault) := by
  obtain ⟨⟨i, k⟩, hget, h⟩ := Option.bind_eq_some_iff.mp h
  obtain ⟨sync, hsync, h⟩ := Option.bind_eq_some_iff.mp h
  rw [Machine.getMutexEnd, show s.sync.kernel = s.kernel from rfl, hget] at hsync
  obtain rfl := Option.some.inj hsync
  cases index with
  | none =>
    obtain ⟨rfl, -⟩ := Prod.mk.inj (Option.some.inj h)
    exact Or.inr ⟨fun hends => hends.1 rfl, rfl⟩
  | some index =>
    dsimp only at h
    split_ifs at h with hplace
    · obtain ⟨rfl, -⟩ := Prod.mk.inj (Option.some.inj h)
      refine Or.inr ⟨fun hends => ?_, rfl⟩
      exact hplace.elim (not_lt.mpr hends.2.1) (not_le.mpr hends.2.2)
    · obtain ⟨u, hfree, hpair⟩ := Option.map_eq_some_iff.mp h
      obtain ⟨rfl, rfl⟩ := Prod.mk.inj hpair
      obtain ⟨hkept, -, hholders, -⟩ := free_spec hfree
      push Not at hplace
      refine Or.inl ⟨⟨by simp, hplace⟩, ⟨hkept.ipc, (slotsKept_getMutexRest hget).trans hkept.slots⟩,
        ⟨_, rfl⟩, hholders.trans ?_⟩
      have hpid : k.pid = s.pid := getMutexRest_pid hget
      have hadmin : s.sync.kernel.adminMutex = s.ipcAdminMutex := hl.admin
      show ((s.sync.ledger.release s.sync.kernel.adminMutex s.sync.pid).holders
        s.ipcAdminMutex).erase k.pid = _
      rw [hpid, hadmin, release_self]
      rfl

/-- Behind `lockMutex(ipcAdminMutex)` the call of `getMutex` is suspended as long as the mutex is
locked. -/
theorem createPipeRest_locked (hl : AdminLocks s) (hmem : s.pid ∈ s.holders s.ipcAdminMutex)
    (hlocked : passes s.ipcAdminMutex s.kernel = false)
    (h : s.createPipeRest name garbage = some (o, t)) (hv : v.pid = s.pid) :
    Kept s t ∧ ¬ Released v t o := by
  unfold Admin.createPipeRest at h
  split at h
  · next u hstart =>
    obtain ⟨hsync, hipc, -⟩ := createPipeStart_spec hstart
    obtain ⟨rfl, rfl⟩ := Prod.mk.inj (Option.some.inj h)
    refine ⟨Kept.of_sync hsync hipc, not_released ?_ fun m hm => nomatch hm⟩
    rw [hv, hipc, Admin.holders, hsync]
    exact hmem
  · next u hstart =>
    obtain ⟨hsync, hipc, -⟩ := createPipeStart_spec hstart
    obtain ⟨rfl, rfl⟩ := Prod.mk.inj (Option.some.inj h)
    exact ⟨Kept.of_sync hsync hipc, fun hreleased => hreleased⟩
  · next index u hstart =>
    obtain ⟨hsync, hipc, -⟩ := createPipeStart_spec hstart
    have hkept : Kept s u := Kept.of_sync hsync hipc
    have hu := hl.kept hkept
    rw [hu.admin] at h
    rcases lockThen_spec hu h with ⟨-, rfl, ht, hholders⟩ | ⟨hpasses, -⟩
    · refine ⟨hkept.trans ht, not_released ?_ fun m hm => ?_⟩
      · rw [hv, ht.ipc, hholders, hipc, Admin.holders, hsync]
        exact hmem
      · rw [ht.ipc]
        exact (Outcome.suspended.inj hm).symm
    · rw [Admin.kernel, hsync, hipc] at hpasses
      exact absurd (hpasses.symm.trans hlocked) (by simp)

/-- Behind `lockMutex(ipcAdminMutex)` when the mutex has been freed once more. -/
theorem createPipeRest_passes (hl : AdminLocks s) (hmem : s.pid ∈ s.holders s.ipcAdminMutex)
    (hpasses : passes s.ipcAdminMutex s.kernel = true)
    (h : s.createPipeRest name garbage = some (o, t)) (hv : v.pid = s.pid) :
    (HasRoom s name ∧ Kept s t ∧ (∃ pipe, o = .returned (some pipe)) ∧
      t.holders s.ipcAdminMutex = (s.holders s.ipcAdminMutex).erase s.pid) ∨
    (¬ HasRoom s name ∧ (o ≠ .fault → Kept s t) ∧ ¬ Released v t o) := by
  unfold Admin.createPipeRest at h
  split at h
  · next u hstart =>
    obtain ⟨hsync, hipc, hroom, -⟩ := createPipeStart_spec hstart
    obtain ⟨rfl, rfl⟩ := Prod.mk.inj (Option.some.inj h)
    refine Or.inr ⟨fun hr => ?_, fun _ => Kept.of_sync hsync hipc,
      not_released ?_ fun m hm => nomatch hm⟩
    · obtain ⟨-, i, hi⟩ := hroom.resolve_right fun hn => hn.1 hr
      exact nomatch hi
    · rw [hv, hipc, Admin.holders, hsync]
      exact hmem
  · next u hstart =>
    obtain ⟨hsync, hipc, hroom, -⟩ := createPipeStart_spec hstart
    obtain ⟨rfl, rfl⟩ := Prod.mk.inj (Option.some.inj h)
    refine Or.inr ⟨fun hr => ?_, fun ho => absurd rfl ho, fun hreleased => hreleased⟩
    obtain ⟨-, i, hi⟩ := hroom.resolve_right fun hn => hn.1 hr
    exact nomatch hi
  · next index u hstart =>
    obtain ⟨hsync, hipc, hroom, hplace⟩ := createPipeStart_spec hstart
    have hkept : Kept s u := Kept.of_sync hsync hipc
    have hu := hl.kept hkept
    have hpid : u.pid = s.pid := congrArg Machine.pid hsync
    have hheld : u.holders u.ipcAdminMutex = s.holders s.ipcAdminMutex := by
      rw [hipc, Admin.holders, hsync]
      rfl
    have hup : passes u.ipcAdminMutex u.kernel = true := by
      rw [hipc, Admin.kernel, hsync]
      exact hpasses
    rw [hu.admin] at h
    rcases lockThen_spec hu h with ⟨hf, -⟩ | ⟨-, w, hw, htables, -, hwpid, hwheld, -, hend⟩
    · exact absurd (hup.symm.trans hf) (by simp)
    · have hpipe : Ends w index ↔ index ≠ none := by
        rw [Ends, htables.lastPipeName]
        exact ⟨fun hends => hends.1, fun hi => ⟨hi, hplace index rfl⟩⟩
      rw [← hw.ipc] at hwheld
      rcases createPipeEnd_spec (hu.kept hw) hend with ⟨hends, ht, ho, hholders⟩ | ⟨hends, rfl⟩
      · left
        obtain ⟨i, rfl⟩ := Option.ne_none_iff_exists'.mp (hpipe.mp hends)
        refine ⟨(hroom.resolve_right fun hn => hn.2 i rfl).1, (hkept.trans hw).trans ht, ho, ?_⟩
        rw [← hipc, ← hw.ipc, hholders, hwheld, hwpid, List.erase_cons_head, hw.ipc, hheld, hpid, hipc]
      · right
        have hnone : index = none := not_not.mp fun hi => hends (hpipe.mpr hi)
        subst hnone
        refine ⟨fun hr => ?_, fun ho => absurd rfl ho, fun hreleased => hreleased⟩
        obtain ⟨-, i, hi⟩ := hroom.resolve_right fun hn => hn.1 hr
        simp at hi

theorem released_iff (hpid : u.pid = s.pid) {pipe : PipeRef} (hipc : t.ipcAdminMutex = s.ipcAdminMutex)
    {l : List ℤ} (hholders : t.holders s.ipcAdminMutex = l) :
    Released u t (.returned (some pipe)) ↔ s.pid ∉ l := by
  rw [Released, hpid, hipc, hholders]

theorem openPipe_spec (hl : AdminLocks s) (h : s.openPipe name garbage = some (o, t)) :
    Kept s t ∧ (Released s t o ↔ Releases s (.openPipe name garbage)) := by
  rw [Releases]
  rcases lockThen_spec hl h with ⟨hpasses, rfl, hkept, hholders⟩ |
    ⟨hpasses, u, hu, htables, hstrings, hpid, hheld, -, hrest⟩
  · refine ⟨hkept, ?_⟩
    rw [Released, hholders, hpasses]
    simp
  · rw [← hu.ipc] at hheld
    have hregistered : Registered u name ↔ Registered s name := registered_congr htables hstrings
    rcases openPipeRest_spec hrest with ⟨hr, ht, ⟨pipe, rfl⟩, hholders⟩ | ⟨hr, rfl, ho⟩
    · refine ⟨hu.trans ht, ?_⟩
      rw [hheld, hpid, List.erase_cons_head] at hholders
      rw [released_iff hpid.symm ht.ipc hholders, hpid, hu.ipc]
      simp [hpasses, hregistered.mp hr]
    · refine ⟨hu, iff_of_false (not_released ?_ ?_) fun hs => ?_⟩
      · rw [hheld]
        exact List.mem_cons_self
      · intro m hm
        rcases ho with rfl | rfl <;> exact nomatch hm
      · exact hr (hregistered.mpr (hs.2 hpasses))

theorem createPipe_spec (hl : AdminLocks s) (h : s.createPipe name garbage = some (o, t)) :
    Kept s t ∧ (Released s t o ↔ Releases s (.createPipe name garbage)) := by
  rw [Releases]
  rcases lockThen_spec hl h with ⟨hpasses, rfl, hkept, hholders⟩ |
    ⟨hpasses, u, hu, -, -, hpid, hheld, hlocked, hrest⟩
  · refine ⟨hkept, ?_⟩
    rw [Released, hholders, hpasses]
    simp
  · rw [← hu.ipc] at hheld hlocked
    have hmem : u.pid ∈ u.holders u.ipcAdminMutex := by
      rw [hheld, hpid]
      exact List.mem_cons_self
    obtain ⟨ht, hnot⟩ := createPipeRest_locked (hl.kept hu) hmem hlocked hrest hpid.symm
    exact ⟨hu.trans ht, iff_of_false hnot fun hs => by simp [hpasses] at hs⟩

/-- A suspended call has the mutex when it goes on. -/
theorem wake_spec (s : Admin) (mutex : ℤ) : Kept s (s.wake mutex) ∧ SameTables s (s.wake mutex) ∧
    (s.wake mutex).holders mutex = s.pid :: s.holders mutex :=
  ⟨⟨rfl, SlotsKept.refl _⟩, ⟨rfl, rfl, rfl, rfl⟩, hold_self _ _⟩

theorem resume_spec (hl : AdminLocks s) (h : s.resume garbage = some (o, t)) :
    (o ≠ .fault → Kept s t) ∧ (Released s t o ↔ Releases s (.resume garbage)) := by
  have hreleases : ∀ {rest : AdminRest}, s.rest s.pid = some rest →
      (Releases s (.resume garbage) ↔ rest.Releases s) := fun hrest => by simp [Releases, hrest]
  unfold Admin.resume at h
  split at h
  · exact absurd h (by simp)
  · next name hrest =>
    obtain ⟨hkept, htables, hheld⟩ := wake_spec s s.ipcAdminMutex
    have hregistered : Registered (s.wake s.ipcAdminMutex) name ↔ Registered s name :=
      registered_congr htables rfl
    rcases openPipeRest_spec h with ⟨hr, ht, ⟨pipe, rfl⟩, hholders⟩ | ⟨hr, rfl, ho⟩
    · refine ⟨fun _ => hkept.trans ht, ?_⟩
      rw [hkept.ipc, hheld] at hholders
      rw [released_iff rfl (hkept.trans ht).ipc hholders, hreleases hrest]
      show s.pid ∉ (s.pid :: s.holders s.ipcAdminMutex).erase s.pid ↔ _
      rw [List.erase_cons_head]
      exact (and_iff_left (hregistered.mp hr)).symm
    · refine ⟨fun _ => hkept, iff_of_false (not_released ?_ fun m hm => ?_) fun hs => ?_⟩
      · rw [hkept.ipc, hheld]
        exact List.mem_cons_self
      · rcases ho with rfl | rfl <;> exact nomatch hm
      · exact hr (hregistered.mpr ((hreleases hrest).mp hs).2)
  · next name hrest =>
    obtain ⟨hkept, -, hheld⟩ := wake_spec s s.ipcAdminMutex
    have hmem : (s.wake s.ipcAdminMutex).pid ∈
        (s.wake s.ipcAdminMutex).holders (s.wake s.ipcAdminMutex).ipcAdminMutex := by
      rw [hkept.ipc, hheld]
      exact List.mem_cons_self
    have hroom : HasRoom (s.wake s.ipcAdminMutex) name ↔ HasRoom s name := Iff.rfl
    cases hpasses : passes s.ipcAdminMutex s.kernel with
    | false =>
      obtain ⟨ht, hnot⟩ := createPipeRest_locked (v := s) (hl.kept hkept) hmem hpasses h rfl
      refine ⟨fun _ => hkept.trans ht, iff_of_false hnot fun hs => ?_⟩
      rw [hreleases hrest, AdminRest.Releases, hl.admin, hpasses] at hs
      exact absurd hs.2.1 (by simp)
    | true =>
      rcases createPipeRest_passes (v := s) (hl.kept hkept) hmem hpasses h rfl with
        ⟨hr, ht, ⟨pipe, rfl⟩, hholders⟩ | ⟨hr, ht, hnot⟩
      · refine ⟨fun _ => hkept.trans ht, ?_⟩
        rw [hkept.ipc, hheld] at hholders
        rw [released_iff rfl (hkept.trans ht).ipc hholders, hreleases hrest, AdminRest.Releases,
          hl.admin]
        show s.pid ∉ (s.pid :: s.holders s.ipcAdminMutex).erase s.pid ↔ _
        rw [List.erase_cons_head]
        exact (and_iff_left ⟨hpasses, hroom.mp hr⟩).symm
      · refine ⟨fun ho => hkept.trans (ht ho), iff_of_false hnot fun hs => ?_⟩
        exact hr (hroom.mpr ((hreleases hrest).mp hs).2.2)
  · next name index hrest =>
    obtain ⟨hkept, -, hheld⟩ := wake_spec s s.kernel.adminMutex
    have hends : Ends (s.wake s.kernel.adminMutex) index ↔ Ends s index := Iff.rfl
    rw [hl.admin] at hheld h hkept hends
    rcases createPipeEnd_spec (hl.kept hkept) h with ⟨he, ht, ⟨pipe, rfl⟩, hholders⟩ | ⟨he, rfl⟩
    · refine ⟨fun _ => hkept.trans ht, ?_⟩
      rw [hkept.ipc, hheld] at hholders
      rw [released_iff rfl (hkept.trans ht).ipc hholders, hreleases hrest]
      show s.pid ∉ ((s.pid :: s.holders s.ipcAdminMutex).erase s.pid).erase s.pid ↔ _
      rw [List.erase_cons_head]
      exact (and_iff_left (hends.mp he)).symm
    · refine ⟨fun ho => absurd rfl ho, iff_of_false (fun hr => hr) fun hs => ?_⟩
      exact he (hends.mpr ((hreleases hrest).mp hs).2)

theorem closePipe_kept (s : Admin) (pipe : PipeRef) : Kept s (s.closePipe pipe).2 := by
  unfold Admin.closePipe
  split
  · exact Kept.refl s
  · split_ifs
    · exact Kept.refl s
    · split
      · exact Kept.refl s
      · unfold Admin.freeSpace
        dsimp only
        split <;> exact ⟨rfl, SlotsKept.refl _⟩

theorem run_kept (hl : AdminLocks s) {c : PipeCall} (h : c.run s = some (o, t)) (ho : o ≠ .fault) :
    Kept s t := by
  cases c with
  | createPipe name garbage =>
    simp only [PipeCall.run] at h
    split_ifs at h
    exact (createPipe_spec hl h).1
  | openPipe name garbage =>
    simp only [PipeCall.run] at h
    split_ifs at h
    exact (openPipe_spec hl h).1
  | closePipe pipe =>
    simp only [PipeCall.run] at h
    split_ifs at h
    obtain rfl : (s.closePipe pipe).2 = t := congrArg Prod.snd (Option.some.inj h)
    exact closePipe_kept s pipe
  | resume garbage => exact (resume_spec hl h).1 ho

theorem adminStep_locks {a : AdminAction} (hl : AdminLocks s) (h : adminStep s a = some t) :
    AdminLocks t := by
  cases a with
  | pipe c =>
    obtain ⟨⟨o, u⟩, hrun, h⟩ := Option.bind_eq_some_iff.mp h
    dsimp only at h
    split_ifs at h with ho
    obtain rfl := Option.some.inj h
    exact hl.kept (run_kept hl hrun ho)
  | sync a =>
    simp only [adminStep] at h
    split_ifs at h
    obtain ⟨sync, hsync, rfl⟩ := Option.map_eq_some_iff.mp h
    exact ⟨hl.ipc, step_adminSlot hl.slot hsync⟩

theorem IsAdminBoot.adminLocks (h : IsAdminBoot s) : AdminLocks s := by
  obtain ⟨slot, strings, name, initPage, shellPage, hname, -, -, -, hboot, -⟩ := h.sync
  rw [Sync.boot, initializeSemaphores_eq slot hname, Option.map_some] at hboot
  refine ⟨h.ipcAdminMutex, ?_⟩
  rw [Admin.kernel, ← Option.some.inj hboot]
  exact ⟨rfl, rfl, rfl⟩

theorem reachable_adminLocks (h : adminSystem.Reachable s) : AdminLocks s :=
  h.invariant (I := AdminLocks) (fun _ hs => IsAdminBoot.adminLocks hs)
    fun s a t hs hstep => adminStep_locks hs (show adminStep s a = some t from hstep)

/-- In every reachable state the calls of `openPipe` and `createPipe` that do what they owe are
exactly those. -/
theorem pipe_lock_released (h : adminSystem.Reachable s) {c : PipeCall}
    (hc : ∀ pipe, c ≠ .closePipe pipe) (hrun : c.run s = some (o, t)) :
    Released s t o ↔ Releases s c := by
  have hl := reachable_adminLocks h
  cases c with
  | createPipe name garbage =>
    simp only [PipeCall.run] at hrun
    split_ifs at hrun
    exact (createPipe_spec hl hrun).2
  | openPipe name garbage =>
    simp only [PipeCall.run] at hrun
    split_ifs at hrun
    exact (openPipe_spec hl hrun).2
  | closePipe pipe => exact absurd rfl (hc pipe)
  | resume garbage => exact (resume_spec hl hrun).2

end

/-! ### Runs -/

/-- The memory of the pipes is zero. -/
def bootedAdmin : Admin where
  sync := bootedMachine
  pipeNames := fun _ => null
  pipes := fun _ => none
  lastPipeName := 0
  ipcAdminMutex := 0
  owner := fun _ => freshOwner (fun _ => 0) fun _ => ⟨null, 0, 0, false, 0, 0, 0, 0, 0, 0, 0⟩
  rest := fun _ => none
  created := []

theorem isAdminBoot_bootedAdmin : IsAdminBoot bootedAdmin where
  sync := isBoot_bootedMachine
  pipeNames _ := rfl
  pipes _ := rfl
  lastPipeName := rfl
  ipcAdminMutex := rfl
  owner _ := ⟨_, _, rfl⟩
  rest _ := rfl
  created := rfl

/-- Process 3 has the mutex while process 2 calls `createPipe`, and frees it twice. -/
theorem pipe_lock_released_create : ∃ s t, adminSystem.Reachable s ∧
    (PipeCall.resume 0).run s = some (.returned (some ⟨2, 0⟩), t) ∧
      Released s t (.returned (some ⟨2, 0⟩)) ∧ Releases s (.resume 0) := by
  have hrun : ((execute adminStep bootedAdmin
      [.sync (.createProcess (pageAt 2)), .sync (.createProcess (pageAt 3)), .sync .tick,
        .sync (.lockMutex 0 0), .sync .tick, .pipe (.createPipe 5 0), .sync .tick, .sync .tick,
        .sync (.freeMutex 0), .sync (.freeMutex 0), .sync .tick]).bind fun s =>
          ((PipeCall.resume 0).run s).map fun r => (r.1, r.2.holders r.2.ipcAdminMutex)) =
      some (.returned (some ⟨2, 0⟩), []) := by decide +kernel
  obtain ⟨s, hs, hrun⟩ := Option.bind_eq_some_iff.mp hrun
  obtain ⟨⟨o, t⟩, ht, hobserved⟩ := Option.map_eq_some_iff.mp hrun
  obtain ⟨rfl, hholders⟩ := Prod.mk.inj hobserved
  have hreach : adminSystem.Reachable s := reachable_of_execute _ isAdminBoot_bootedAdmin hs
  have hreleased : Released s t (.returned (some ⟨2, 0⟩)) := by
    rw [Released, show t.holders t.ipcAdminMutex = [] from hholders]
    exact List.not_mem_nil
  exact ⟨s, t, hreach, ht, hreleased,
    (pipe_lock_released hreach (by simp) ht).mp hreleased⟩

/-- The first process after the init process runs, and nobody is in a pipe call. It waits in
`createPipe` for the mutex that it has, and leaves `openPipe` with the mutex. -/
theorem pipe_lock_not_released : ∃ s, adminSystem.Reachable s ∧ (∀ p, s.rest p = none) ∧
    (∃ t, (PipeCall.createPipe 5 0).run s = some (.suspended 0, t) ∧ s.pid ∈ t.holders 0 ∧
      ¬ Released s t (.suspended 0)) ∧
    ∃ t, (PipeCall.openPipe 5 0).run s = some (.returned none, t) ∧
      s.pid ∈ t.holders t.ipcAdminMutex ∧ ¬ Released s t (.returned none) := by
  have hrun : ((step bootedAdmin.sync .tick).map fun sync => { bootedAdmin with sync := sync }).bind
      (fun s => ((PipeCall.createPipe 5 0).run s).bind fun r =>
        ((PipeCall.openPipe 5 0).run s).map fun r' =>
          (s.pid, r.1, r.2.holders 0, r'.1, r'.2.holders r'.2.ipcAdminMutex)) =
      some (1, .suspended 0, [1], .returned none, [1]) := by decide +kernel
  obtain ⟨s, hs, hrun⟩ := Option.bind_eq_some_iff.mp hrun
  obtain ⟨⟨o, t⟩, ht, hrun⟩ := Option.bind_eq_some_iff.mp hrun
  obtain ⟨⟨o', t'⟩, ht', hobserved⟩ := Option.map_eq_some_iff.mp hrun
  simp only [Prod.mk.injEq] at hobserved
  obtain ⟨hpid, rfl, hholders, rfl, hholders'⟩ := hobserved
  have hstep : adminStep bootedAdmin (.sync .tick) = some s := hs
  obtain ⟨sync, -, rfl⟩ := Option.map_eq_some_iff.mp hs
  have hmem : Admin.pid { bootedAdmin with sync := sync } ∈ t.holders 0 := by
    rw [hpid, hholders]
    exact List.mem_cons_self
  have hmem' : Admin.pid { bootedAdmin with sync := sync } ∈ t'.holders t'.ipcAdminMutex := by
    rw [hpid, hholders']
    exact List.mem_cons_self
  refine ⟨_, (System.Reachable.start isAdminBoot_bootedAdmin).next hstep, fun _ => rfl,
    ⟨t, ht, hmem, fun h => h hmem⟩, t', ht', hmem', fun h => h.1 hmem'⟩

end GatOS.PipeAdmin
