import GatOS.SemaphoreFrame

/-!
# The slot of the administrative mutex

A mutex that is in use stays in use and keeps its creator until `closeMutex`. The first slot was
created by nobody, so no process can close it.
-/
namespace GatOS.Sync
open Scheduler Transition

/-- Mutexes that are in use stay in use and keep their creators. -/
structure SlotsKept (k k' : Kernel) : Prop where
  admin : k'.adminMutex = k.adminMutex
  slot : ∀ i, (k.mutexes i).used = true →
    (k'.mutexes i).used = true ∧ (k'.mutexes i).pidCreator = (k.mutexes i).pidCreator

/-- `adminMutex` is the first mutex, it is in use, and its creator is the init process. -/
structure AdminSlot (k : Kernel) : Prop where
  admin : k.adminMutex = 0
  used : (k.mutexes 0).used = true
  creator : (k.mutexes 0).pidCreator = initPid

section

variable {k k' k'' : Kernel} {s t : Machine} {i mutex : ℤ}

theorem SlotsKept.refl (k : Kernel) : SlotsKept k k := ⟨rfl, fun _ h => ⟨h, rfl⟩⟩

theorem SlotsKept.trans (h : SlotsKept k k') (g : SlotsKept k' k'') : SlotsKept k k'' := by
  refine ⟨g.admin.trans h.admin, fun i hi => ?_⟩
  obtain ⟨hused, hcreator⟩ := h.slot i hi
  obtain ⟨hused', hcreator'⟩ := g.slot i hused
  exact ⟨hused', hcreator'.trans hcreator⟩

theorem SlotsKept.of_mutexes (hadmin : k'.adminMutex = k.adminMutex)
    (hmutexes : k'.mutexes = k.mutexes) : SlotsKept k k' := by
  refine ⟨hadmin, fun i hi => ?_⟩
  rw [hmutexes]
  exact ⟨hi, rfl⟩

theorem SlotsKept.setMutex (k : Kernel) {m : Mutex} (hused : (k.mutexes i).used = true →
      m.used = true ∧ m.pidCreator = (k.mutexes i).pidCreator) :
    SlotsKept k (k.setMutex i m) := by
  refine ⟨rfl, fun j hj => ?_⟩
  by_cases hji : j = i
  · subst hji
    rw [Kernel.setMutex_self]
    exact hused hj
  · rw [Kernel.setMutex_ne k m hji]
    exact ⟨hj, rfl⟩

theorem SlotsKept.setState (k : Kernel) (pid : ℤ) (st : ProcessState) :
    SlotsKept k (k.setState pid st) := SlotsKept.of_mutexes rfl rfl

theorem SlotsKept.yield (h : k.yield = some k') : SlotsKept k k' := by
  obtain ⟨-, hmutexes, hadmin, -⟩ := yield_tables h
  exact SlotsKept.of_mutexes hadmin hmutexes

theorem slotsKept_lockMutex {garbage : ℤ} {returned : Bool}
    (h : lockMutex mutex garbage k = some (returned, k')) : SlotsKept k k' := by
  have htest : SlotsKept k (k.setMutex mutex (testAndSet (k.mutexes mutex)).2) := by
    refine SlotsKept.setMutex k fun hused => ?_
    unfold testAndSet
    split_ifs <;> exact ⟨hused, rfl⟩
  unfold lockMutex at h
  dsimp only at h
  split_ifs at h with hneg hvalid hlock hfull
  · obtain ⟨-, rfl⟩ := Prod.mk.inj (Option.some.inj h)
    exact htest
  · obtain ⟨k₁, hyield, hpair⟩ := Option.map_eq_some_iff.mp h
    obtain ⟨-, rfl⟩ := Prod.mk.inj hpair
    exact (htest.trans (SlotsKept.setState _ _ _)).trans (SlotsKept.yield hyield)
  · obtain ⟨k₁, hyield, hpair⟩ := Option.map_eq_some_iff.mp h
    obtain ⟨-, rfl⟩ := Prod.mk.inj hpair
    have hadd : ∀ k : Kernel, SlotsKept k (addToBlocked mutex k.pid k) := fun k => by
      unfold addToBlocked
      dsimp only
      split
      · exact SlotsKept.refl k
      · exact SlotsKept.setMutex k fun hused => ⟨hused, rfl⟩
    exact ((htest.trans (hadd _)).trans (SlotsKept.setState _ _ _)).trans (SlotsKept.yield hyield)
  · obtain ⟨-, rfl⟩ := Prod.mk.inj (Option.some.inj h)
    exact SlotsKept.refl k

theorem slotsKept_freeMutex (h : freeMutex mutex k = some k') : SlotsKept k k' := by
  have hunblock : SlotsKept k (unblockProcess mutex k) := by
    unfold unblockProcess
    dsimp only
    split
    · exact SlotsKept.refl k
    · next i pid _ =>
      exact (SlotsKept.setState k pid _).trans (SlotsKept.setMutex _ fun hused => ⟨hused, rfl⟩)
  unfold freeMutex at h
  split_ifs at h with hneg hvalid hpos
  · obtain rfl := Option.some.inj h
    exact hunblock.trans (SlotsKept.setMutex _ fun hused => ⟨hused, rfl⟩)
  · obtain rfl := Option.some.inj h
    exact SlotsKept.setMutex k fun hused => ⟨hused, rfl⟩
  · exact Option.some.inj h ▸ SlotsKept.refl k

/-- A mutex is created in a slot that is not in use. -/
theorem slotsKept_getMutexRest {name : ℕ} (h : getMutexRest name k = some (i, k')) :
    SlotsKept k k' := by
  rcases getMutexRest_cases h with ⟨-, hfree⟩ | ⟨-, -, -, hfree⟩ | ⟨-, hspot, hfree⟩
  · exact slotsKept_freeMutex hfree
  · exact slotsKept_freeMutex hfree
  · obtain ⟨-, -, hunused⟩ := firstIndex_spec hspot
    refine SlotsKept.trans (SlotsKept.setMutex k fun hused => ?_) (slotsKept_freeMutex hfree)
    simp [hused] at hunused

theorem slotsKept_waitRest {j : ℤ} {returned : Bool} (h : waitRest j k = some (returned, k')) :
    SlotsKept k k' := by
  have hadd : ∀ k : Kernel, SlotsKept k (addToSemBlocked j k.pid k) := fun k => by
    unfold addToSemBlocked
    dsimp only
    split <;> exact SlotsKept.of_mutexes rfl rfl
  have hdecrement : SlotsKept k (decrement j k) := SlotsKept.of_mutexes rfl rfl
  unfold waitRest at h
  dsimp only at h
  split_ifs at h with hpos
  · obtain ⟨k₁, hfree, hpair⟩ := Option.map_eq_some_iff.mp h
    obtain ⟨-, rfl⟩ := Prod.mk.inj hpair
    exact hdecrement.trans (slotsKept_freeMutex hfree)
  · obtain ⟨k₁, hfree, hrest⟩ := Option.bind_eq_some_iff.mp h
    obtain ⟨k₂, hyield, hpair⟩ := Option.map_eq_some_iff.mp hrest
    obtain ⟨-, rfl⟩ := Prod.mk.inj hpair
    refine SlotsKept.trans ?_ (SlotsKept.yield hyield)
    refine SlotsKept.trans ?_ (slotsKept_freeMutex hfree)
    exact (hdecrement.trans (hadd _)).trans (SlotsKept.setState _ _ _)

theorem slotsKept_signal {j : ℤ} (h : signal j k = some k') : SlotsKept k k' := by
  have hunblock : SlotsKept k (unblockProcessSemaphore j k) := by
    unfold unblockProcessSemaphore
    dsimp only
    split <;> exact SlotsKept.of_mutexes rfl rfl
  unfold signal at h
  dsimp only at h
  split_ifs at h with hneg hvalid hpos
  · obtain rfl := Option.some.inj h
    exact hunblock.trans (SlotsKept.of_mutexes rfl rfl)
  · obtain rfl := Option.some.inj h
    exact SlotsKept.of_mutexes rfl rfl
  · exact Option.some.inj h ▸ SlotsKept.refl k

/-- Only `closeMutex` takes a mutex out of use. -/
theorem op_slotsKept {op : Op} (hclose : ∀ m, op ≠ .close m) (h : op.perform s = some t) :
    SlotsKept s.kernel t.kernel := by
  cases op with
  | switch =>
    obtain ⟨k, hk, rfl⟩ := Option.map_eq_some_iff.mp h
    exact SlotsKept.yield hk
  | createProcess page =>
    obtain rfl := Option.some.inj h
    exact SlotsKept.of_mutexes rfl rfl
  | removeProcess pid =>
    obtain ⟨sched, -, rfl⟩ := Option.map_eq_some_iff.mp h
    exact SlotsKept.of_mutexes rfl rfl
  | lock mutex garbage rest =>
    obtain ⟨⟨b, t'⟩, hlock, rfl⟩ := Option.map_eq_some_iff.mp h
    obtain ⟨⟨returned, k⟩, hk, hpair⟩ := Option.map_eq_some_iff.mp hlock
    have hkept := slotsKept_lockMutex hk
    cases returned with
    | true =>
      obtain ⟨-, rfl⟩ := Prod.mk.inj hpair
      exact hkept
    | false =>
      obtain ⟨-, rfl⟩ := Prod.mk.inj hpair
      exact hkept
  | free mutex =>
    obtain ⟨k, hk, rfl⟩ := Option.map_eq_some_iff.mp h
    exact slotsKept_freeMutex hk
  | getMutexEnd name =>
    obtain ⟨⟨i, k⟩, hk, rfl⟩ := Option.map_eq_some_iff.mp h
    exact slotsKept_getMutexRest hk
  | close m => exact absurd rfl (hclose m)
  | reserve index name =>
    obtain rfl := Option.some.inj h
    exact SlotsKept.of_mutexes rfl rfl
  | createSemaphoreEnd index name start pid =>
    obtain ⟨k, hk, rfl⟩ := Option.map_eq_some_iff.mp h
    obtain ⟨⟨i, k₁⟩, hget, hfree⟩ := Option.bind_eq_some_iff.mp hk
    refine (slotsKept_getMutexRest hget).trans (SlotsKept.trans ?_ (slotsKept_freeMutex hfree))
    exact SlotsKept.of_mutexes rfl rfl
  | closeSemaphore j =>
    obtain ⟨k, hk, rfl⟩ := Option.map_eq_some_iff.mp h
    rcases semClose_cases hk with rfl | ⟨-, -, rfl⟩
    · exact SlotsKept.refl _
    · exact SlotsKept.of_mutexes rfl rfl
  | waitEnd j =>
    obtain ⟨⟨returned, k⟩, hk, rfl⟩ := Option.map_eq_some_iff.mp h
    have hkept := slotsKept_waitRest hk
    cases returned with
    | true => exact hkept
    | false => exact hkept
  | signal j =>
    obtain ⟨k, hk, rfl⟩ := Option.map_eq_some_iff.mp h
    exact slotsKept_signal hk
  | wake =>
    obtain rfl := Option.some.inj h
    rw [wake_kernel]
    exact SlotsKept.refl _
  | store strings =>
    obtain rfl := Option.some.inj h
    exact SlotsKept.of_mutexes rfl rfl

theorem AdminSlot.kept (h : AdminSlot k) (hkept : SlotsKept k k') : AdminSlot k' := by
  obtain ⟨hused, hcreator⟩ := hkept.slot 0 h.used
  exact ⟨hkept.admin.trans h.admin, hused, hcreator.trans h.creator⟩

/-- A process that has a number of its own cannot close the first mutex. -/
theorem AdminSlot.close (h : AdminSlot s.kernel) (hpid : s.pid ≠ initPid)
    (hclose : s.close mutex = some t) : AdminSlot t.kernel := by
  obtain ⟨k, hk, rfl⟩ := Option.map_eq_some_iff.mp hclose
  rcases closeMutex_cases hk with rfl | ⟨-, hcreator, rfl⟩
  · exact h
  · have hne : mutex ≠ 0 := fun he => hpid (hcreator.trans (he ▸ h.creator))
    refine ⟨h.admin, ?_, ?_⟩
    · exact (congrArg Mutex.used (Kernel.setMutex_ne _ _ hne.symm)).trans h.used
    · exact (congrArg Mutex.pidCreator (Kernel.setMutex_ne _ _ hne.symm)).trans h.creator

/-- A process that closes a mutex is not the init process. -/
def ClosesOwn (s : Machine) (op : Op) : Prop := ∀ m, op = .close m → s.pid ≠ initPid

theorem admitted_closesOwn {a : Action} (h : step s a = some t) : a.Admitted ClosesOwn s := by
  have hrest : ∀ (s : Machine) (rest : Rest), rest.Admitted ClosesOwn s := fun s rest => by
    cases rest with
    | wait j =>
      intro s' _ m hm
      cases hm
    | semCreate name start =>
      intro index _ s' op _ hcreates m hm
      subst hm
      exact hcreates.elim
    | createSemaphore index name start pid =>
      intro s' op _ hcreates m hm
      subst hm
      exact hcreates.elim
    | lockMutex => trivial
    | getMutex name => trivial
  cases a with
  | closeMutex mutex =>
    simp only [step] at h
    split_ifs at h with hc
    exact fun m _ => hc.2
  | removeProcess pid =>
    intro m hm
    cases hm
  | semClose j =>
    intro m hm
    cases hm
  | signal j =>
    intro m hm
    cases hm
  | wait j garbage => exact fun _ _ => hrest s _
  | semCreate name start garbage => exact fun _ => hrest s _
  | resume garbage => exact fun _ rest _ => hrest s rest
  | _ => trivial

theorem step_adminSlot {a : Action} (hs : AdminSlot s.kernel) (h : step s a = some t) :
    AdminSlot t.kernel := by
  have hops : Ops ClosesOwn s t := step_ops (fun s op hbasic m hm => by
    subst hm
    exact hbasic.elim) (admitted_closesOwn h) h
  refine hops.invariant (P := fun s => AdminSlot s.kernel) (fun s op t hs _ hok hrun => ?_) hs
  by_cases hclose : ∃ m, op = .close m
  · obtain ⟨m, rfl⟩ := hclose
    exact hs.close (hok m rfl) hrun
  · exact hs.kept (op_slotsKept (fun m hm => hclose ⟨m, hm⟩) hrun)

end

end GatOS.Sync
