import GatOS.ThreadSwitch

/-!
# Removing a process

The blocks that are acquired for a process are recorded beside the machine. Removing the process
gives none of them back: the pages are only freed when no other process is left, and the init
process always is.
-/
namespace GatOS.Threads
open BuddyAllocator Scheduler Transition

/-- The node of the block is marked `EMPTY`. -/
def Free (b : BuddyArray) (blk : Block) : Prop :=
  ∀ c, IsNode c → blockOf c = blk → b.mark c = .empty

/-- From `s` to `t` the blocks of the process have become free, and those of all others are as they
were. -/
structure TornDown (pid : ℤ) (s t : Machine) : Prop where
  released : ∀ blk ∈ s.owned pid, Free t.buddyArray blk
  others : ∀ p ≠ pid, ∀ blk ∈ s.owned p, ∀ c, IsNode c → blockOf c = blk →
    t.buddyArray.mark c = s.buddyArray.mark c

section

variable {s s₁ s₂ t : Machine} {pid : ℤ} {rsp : ℕ}

/-! ### The page allocator -/

theorem saveStack_buddyArray (h : s.saveStack rsp = .ok t) : t.buddyArray = s.buddyArray := by
  unfold Machine.saveStack at h
  dsimp only at h
  split_ifs at h
  rw [← Except.ok.inj h]

theorem schedule_buddyArray (h : s.schedule = .ok t) : t.buddyArray = s.buddyArray := by
  unfold Machine.schedule at h
  split at h
  · simp at h
  · rw [← Except.ok.inj h]

theorem loadStack_eq {sp : ℕ} (h : s.loadStack = .ok (sp, t)) : t = s := by
  unfold Machine.loadStack at h
  dsimp only at h
  split_ifs at h
  exact (Prod.mk.inj (Except.ok.inj h)).2.symm

theorem nextProcess_buddyArray {sp : ℕ} (h : s.nextProcess rsp = .ok (sp, t)) :
    t.buddyArray = s.buddyArray := by
  unfold Machine.nextProcess at h
  split_ifs at h with hcurrent
  · rw [(Prod.mk.inj (Except.ok.inj h)).2]
  · obtain ⟨u, hsave, h⟩ := bind_eq_ok.mp h
    obtain ⟨v, hschedule, hload⟩ := bind_eq_ok.mp h
    rw [loadStack_eq hload, schedule_buddyArray hschedule, saveStack_buddyArray hsave]

/-- Removing a process does not reach the page allocator. -/
theorem ThreadInvariant.removeProcess_buddyArray (h : ThreadInvariant s) {o : Option ℕ}
    (hremove : s.removeProcess pid rsp = .ok (o, t)) : t.buddyArray = s.buddyArray := by
  have hyield : ∀ u : Machine, u.buddyArray = s.buddyArray →
      (u.nextProcess rsp).map (fun r => (some r.1, r.2)) = .ok (o, t) →
        t.buddyArray = s.buddyArray := by
    intro u hu hnext
    obtain ⟨r, hrun, hr⟩ := map_eq_ok.mp hnext
    rw [← (Prod.mk.inj hr).2, nextProcess_buddyArray hrun, hu]
  have hstay : ∀ u : Machine, u.buddyArray = s.buddyArray →
      (.ok (none, u) : Except Fault (Option ℕ × Machine)) = .ok (o, t) →
        t.buddyArray = s.buddyArray := by
    intro u hu hnext
    rw [← (Prod.mk.inj (Except.ok.inj hnext)).2, hu]
  unfold Machine.removeProcess at hremove
  split_ifs at hremove with hpid hnone hsingle
  · exact hyield s rfl hremove
  · exact hstay s rfl hremove
  · exact absurd hsingle (h.ring.not_single hpid)
  · split at hremove
    · exact hstay s rfl hremove
    · dsimp only at hremove
      split_ifs at hremove
      · refine hyield _ ?_ hremove
        rfl
      · refine hstay _ ?_ hremove
        rfl

/-! ### The blocks of a process -/

theorem ThreadInvariant.not_free (h : ThreadInvariant s) {blk : Block} (hblk : blk ∈ s.owned pid) :
    ¬ Free s.buddyArray blk := by
  intro hfree
  obtain ⟨ns, htables⟩ := h.tables
  obtain ⟨x, hx, hblock⟩ := htables.owned pid blk hblk
  have hempty := hfree x (htables.marks.node x hx) hblock
  rw [htables.marks.full x hx] at hempty
  exact Mark.noConfusion hempty

theorem path_keeps {as : List Action} (h : ThreadInvariant s) (hpath : threadSystem.Path s as t) :
    ThreadInvariant t ∧ Keeps s t := by
  induction hpath with
  | nil s => exact ⟨h, Keeps.refl s⟩
  | @cons s u t a as hstep _ ih =>
    obtain ⟨hu, hkeeps⟩ := step_threadInvariant h (show step s a = some u from hstep)
    obtain ⟨ht, hrest⟩ := ih hu
    exact ⟨ht, hkeeps.trans hrest⟩

/-- Whatever happens between the creation of a process and its removal, it has blocks then, and all
of them stay marked. -/
theorem not_tornDown (h : threadSystem.Reachable s) {entryPoint : ℕ} {o o' : Option ℕ}
    {as : List Action} (hcreate : perform s (.createProcess entryPoint) = .ok (o, s₁))
    (hpath : threadSystem.Path s₁ as s₂)
    (hremove : perform s₂ (.removeProcess s.sched.pid rsp) = .ok (o', t)) :
    ¬ TornDown s.sched.pid s₂ t ∧
      ∀ blk ∈ s₂.owned s.sched.pid, ¬ Free t.buddyArray blk := by
  have hs := reachable_threadInvariant h
  have hacquired : ThreadInvariant s₁ ∧ s₁.owned s.sched.pid ≠ [] := by
    rcases hs.createProcess entryPoint with ⟨hfault, -⟩ | ⟨u, hrun, -, hu, -, howned⟩
    · rw [perform, hfault] at hcreate
      exact absurd hcreate (by simp [Except.map])
    · rw [perform, hrun] at hcreate
      obtain rfl := (Prod.mk.inj (Except.ok.inj hcreate)).2
      exact ⟨hu, howned⟩
  obtain ⟨hs₁, howned⟩ := hacquired
  obtain ⟨hs₂, hkeeps⟩ := path_keeps hs₁ hpath
  have hmarks : t.buddyArray = s₂.buddyArray := hs₂.removeProcess_buddyArray hremove
  have hleft : ∀ blk ∈ s₂.owned s.sched.pid, ¬ Free t.buddyArray blk := fun blk hblk => by
    rw [hmarks]
    exact hs₂.not_free hblk
  refine ⟨fun htorn => ?_, hleft⟩
  obtain ⟨blk, hblk⟩ := List.exists_mem_of_ne_nil _ howned
  have hblk := hkeeps _ blk hblk
  exact hleft blk hblk (htorn.released blk hblk)

end

/-! ### A concrete run -/

/-- The shell of `teardown_run` creates a thread and asks for memory. -/
def shellActions : List Action := [.switch .tick 5, .createThread 7, .extendHeap 100 1]

/-- The Process record of the shell in that run. -/
def shellPage : Block := ⟨16805888, 1⟩

theorem blockOf_shellPage : IsNode 1031 ∧ blockOf 1031 = shellPage := by
  rw [isNode_iff]
  decide

/-- The init process starts at address 1 and the shell at address 2, which then runs and is
removed. -/
theorem teardown_run : ∃ s s₁ s₂ t o o', threadSystem.Reachable s ∧ s.sched.pid = 1 ∧
    perform s (.createProcess 2) = .ok (o, s₁) ∧ threadSystem.Path s₁ shellActions s₂ ∧
      perform s₂ (.removeProcess 1 6) = .ok (o', t) ∧
        shellPage ∈ s₂.owned 1 ∧ t.buddyArray.mark 1031 = .buddyFull := by
  have hrun : ((zeroMachine.createProcess 1).toOption.any fun s =>
      (perform s (.createProcess 2)).toOption.any fun r =>
        (execute step r.2 shellActions).any fun s₂ =>
          (perform s₂ (.removeProcess 1 6)).toOption.any fun q =>
            s.sched.pid = 1 ∧ shellPage ∈ s₂.owned 1 ∧ q.2.buddyArray.mark 1031 = .buddyFull) =
      true := by
    rw [zeroMachine, empty, createHeap_eq]
    decide +kernel
  obtain ⟨s, hstart, hrun⟩ := ok_of_any hrun
  obtain ⟨⟨o, s₁⟩, hcreate, hrun⟩ := ok_of_any hrun
  obtain ⟨s₂, hexecute, hrun⟩ := (Option.any_eq_true _ _).mp hrun
  obtain ⟨⟨o', t⟩, hremove, hrun⟩ := ok_of_any hrun
  obtain ⟨hpid, howned, hmark⟩ := of_decide_eq_true hrun
  have hs : IsStart s := ⟨_, _, _, 1, hstart⟩
  exact ⟨s, s₁, s₂, t, o, o', System.Reachable.start hs, hpid, hcreate,
    path_of_execute IsStart hexecute, hremove, howned, hmark⟩

/-- The shell is removed. -/
theorem not_tornDown_shell : ∃ s s₂ t, threadSystem.Reachable s ∧
    ¬ TornDown s.sched.pid s₂ t ∧ ∀ blk ∈ s₂.owned s.sched.pid, ¬ Free t.buddyArray blk := by
  obtain ⟨s, s₁, s₂, t, o, o', hs, hpid, hcreate, hpath, hremove, -, -⟩ := teardown_run
  exact ⟨s, s₂, t, hs, not_tornDown hs hcreate hpath (hpid ▸ hremove)⟩

/-- Its Process record stays allocated. -/
theorem teardown_leaks : ∃ s s₁ s₂ t o o', threadSystem.Reachable s ∧
    perform s (.createProcess 2) = .ok (o, s₁) ∧ threadSystem.Path s₁ shellActions s₂ ∧
      perform s₂ (.removeProcess s.sched.pid 6) = .ok (o', t) ∧ ¬ TornDown s.sched.pid s₂ t := by
  obtain ⟨s, s₁, s₂, t, o, o', hs, hpid, hcreate, hpath, hremove, howned, hmark⟩ := teardown_run
  refine ⟨s, s₁, s₂, t, o, o', hs, hcreate, hpath, by rwa [hpid], fun htorn => ?_⟩
  rw [hpid] at htorn
  obtain ⟨hnode, hblock⟩ := blockOf_shellPage
  have hempty := htorn.released shellPage howned 1031 hnode hblock
  rw [hmark] at hempty
  exact Mark.noConfusion hempty

end GatOS.Threads
