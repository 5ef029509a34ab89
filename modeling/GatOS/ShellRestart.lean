import GatOS.ProcessRing

/-!
# Removing all other processes

`killAllExceptCurrent` walks over the ring while `removeProcess` unlinks the slot that it stands on.
-/
namespace GatOS.Scheduler
open LinkedRing Transition

/-- `removeProcess` where `onYield` is what `_yield` does. -/
def removeProcessWith (onYield : State → Option State) (pid : ℤ) (s : State) : Option State :=
  if pid = 0 then onYield s
  else if s.current = null then some s
  else if eqProcess (s.processOf s.current) (s.processOf (s.nextOf s.current)) ∧
      (s.processOf s.current).pid = pid then
    some { s with current := null, cardinalProcesses := s.cardinalProcesses - 1 }
  else
    match findSlot s pid s.cardinalProcesses s.current (s.nextOf s.current) with
    | none => some s
    | some (prevSlot, slotToRemove) =>
      let s := s.setNext prevSlot (s.nextOf slotToRemove)
      let s := { s with cardinalProcesses := s.cardinalProcesses - 1 }
      if eqProcess (s.processOf slotToRemove) (s.processOf s.current) then onYield s else some s

/-- The loop of `killAllExceptCurrent`; `pid` is the number of the current process at its start. -/
def killLoop (onYield : State → Option State) (pid : ℤ) : ℕ → ℕ → State → Option State
  | 0, _, _ => none
  | fuel + 1, aux, s =>
    if aux = s.current then some s
    else
      let currPid := (s.processOf aux).pid
      (if currPid ≠ pid ∧ currPid ≠ initPid then removeProcessWith onYield currPid s
        else some s).bind fun s => killLoop onYield pid fuel (s.nextOf aux) s

def killAllExceptCurrent (onYield : State → Option State) (fuel : ℕ) (s : State) : Option State :=
  killLoop onYield (getCurrentPid s) fuel (s.nextOf s.current) s

theorem removeProcess_eq_with (pid : ℤ) (s : State) :
    removeProcess pid s = removeProcessWith yield pid s := rfl

variable {s : State} {a p x : ℕ} {l l₁ l₂ : List ℕ}

/-! ### One process less -/

/-- The loop of `removeProcess` ends at the slot `x`, with the slot before it. -/
theorem findSlot_of_chain {pid : ℤ} {prev n : ℕ} (h : Chain s.nextOf a l x)
    (hl : ∀ y ∈ l, (s.processOf y).pid ≠ pid) (hx : (s.processOf x).pid = pid)
    (hn : l.length < n) (hprev : prev :: l = l₁ ++ [p]) :
    findSlot s pid n prev a = some (p, x) := by
  induction l generalizing a prev n l₁ with
  | nil =>
    obtain rfl : a = x := h
    obtain ⟨rfl, rfl⟩ : l₁ = [] ∧ prev = p := by
      cases l₁ <;> simp_all
    obtain ⟨n, rfl⟩ := Nat.exists_eq_succ_of_ne_zero hn.ne'
    simp [findSlot, hx]
  | cons y l ih =>
    obtain ⟨rfl, h⟩ := h
    obtain ⟨n, rfl⟩ := Nat.exists_eq_succ_of_ne_zero (Nat.ne_zero_of_lt hn)
    have ha := hl a List.mem_cons_self
    simp only [findSlot, ha, if_false]
    cases l₁ with
    | nil => simp at hprev
    | cons z l₁ =>
      apply ih h (fun w hw => hl w (List.mem_cons_of_mem a hw)) (by simpa using hn)
      exact (List.cons.inj hprev).2

/-- Another process than the current one is unlinked, and nothing yields. -/
theorem WellFormedRing.removeProcessWith_other (h : WellFormedRing s)
    (hl : ring s = l₁ ++ p :: x :: l₂) (hx : (s.processOf x).pid ≠ 0)
    (onYield : State → Option State) :
    removeProcessWith onYield (s.processOf x).pid s = some (s.unlink p x) := by
  have hring := h.isRing
  obtain ⟨l, hcons⟩ := hring.eq_cons
  obtain ⟨l₀, hl₀⟩ : ∃ l₀, l₁ ++ [p] = s.current :: l₀ ∧ l = l₀ ++ x :: l₂ := by
    have heq : (l₁ ++ [p]) ++ x :: l₂ = s.current :: l := by
      rw [← hcons, hl]
      simp
    cases l₁ with
    | nil =>
      obtain ⟨hp, hl⟩ := List.cons.inj heq
      exact ⟨[], by rw [← hp]; rfl, hl.symm⟩
    | cons z l₁ =>
      obtain ⟨hz, hl⟩ := List.cons.inj heq
      exact ⟨l₁ ++ [p], by rw [← hz]; rfl, by rw [← hl]; simp⟩
  obtain ⟨hl₀, rfl⟩ := hl₀
  rw [hcons] at hring
  have hnodup := hring.nodup
  have hother : ∀ y ∈ s.current :: l₀, (s.processOf y).pid ≠ (s.processOf x).pid := by
    intro y hy hpid
    have hyring : y ∈ ring s := by
      rw [hcons]
      exact List.mem_append_left (x :: l₂) hy
    obtain rfl := h.slot_eq hyring (by simp [hcons]) hpid
    exact (List.nodup_append.mp (show ((s.current :: l₀) ++ y :: l₂).Nodup from hnodup)).2.2
      y hy y List.mem_cons_self rfl
  have hcur := hother s.current List.mem_cons_self
  have hchain : Chain s.nextOf (s.nextOf s.current) l₀ x := by
    obtain ⟨c, hchain, rfl, -⟩ := chain_append.mp hring.chain.2
    exact hchain
  have hlen : l₀.length < s.cardinalProcesses := by
    rw [← length_ring, hcons, List.length_cons, List.length_append]
    omega
  have hfind := findSlot_of_chain hchain
    (fun y hy => hother y (List.mem_cons_of_mem _ hy)) rfl hlen hl₀.symm
  have hsame : eqProcess ((s.unlink p x).processOf x)
      ((s.unlink p x).processOf (s.unlink p x).current) = false := by
    rw [unlink_processOf]
    exact decide_eq_false hcur.symm
  rw [removeProcessWith, if_neg hx, if_neg h.current_ne_null, if_neg (fun hboth => hcur hboth.2),
    hfind]
  show (if eqProcess ((s.unlink p x).processOf x)
    ((s.unlink p x).processOf (s.unlink p x).current) = true then _ else _) = _
  rw [hsame]
  rfl

theorem pids_eq (s : State) : pids s = (ring s).map fun a => (s.processOf a).pid := by
  rw [pids, processes, List.map_map]
  rfl

theorem WellFormedRing.unlink (h : WellFormedRing s) (hl : ring s = l₁ ++ p :: x :: l₂)
    (hx : (s.processOf x).pid ≠ initPid) : WellFormedRing (s.unlink p x) := by
  obtain ⟨hring, heq⟩ := isRing_unlink h.isRing hl
  have hsub : (l₁ ++ p :: l₂).Sublist (ring s) := by
    rw [hl]
    exact ((List.sublist_cons_self x l₂).cons_cons p).append_left l₁
  have hpids : pids (s.unlink p x) = (l₁ ++ p :: l₂).map fun a => (s.processOf a).pid := by
    rw [pids_eq, heq, unlink_processOf]
  refine ⟨by rwa [heq], fun hmem => ?_, ?_, ?_⟩
  · rw [heq] at hmem
    exact h.null_notMem (hsub.subset hmem)
  · rw [hpids]
    apply List.Nodup.sublist (hsub.map _)
    rw [← pids_eq]
    exact h.pids_nodup
  · have hinit := h.init
    rw [pids_eq, List.mem_map] at hinit
    obtain ⟨a, ha, hpid⟩ := hinit
    rw [hpids, List.mem_map]
    refine ⟨a, ?_, hpid⟩
    have hne : a ≠ x := fun he => hx (he ▸ hpid)
    rw [hl] at ha
    simpa [hne] using ha

/-! ### The walk -/

/-- The rest of the walk, over the slots `l`, removes what is not the init process. The slot that it
stands on keeps its link when it is unlinked. -/
theorem killLoop_spec {aux : ℕ} (kept : List ℕ) (h : WellFormedRing s)
    (hl : ring s = s.current :: (kept ++ l)) (haux : Chain s.nextOf aux l s.current) :
    ∃ t, (∀ onYield fuel, l.length < fuel →
        killLoop onYield (s.processOf s.current).pid fuel aux s = some t) ∧
      WellFormedRing t ∧ t.current = s.current ∧ t.processOf = s.processOf ∧
      ring t = s.current :: (kept ++ l.filter fun a => (s.processOf a).pid = initPid) := by
  induction l generalizing s aux kept with
  | nil =>
    obtain rfl : aux = s.current := haux
    refine ⟨s, fun onYield fuel hfuel => ?_, h, rfl, rfl, by simpa using hl⟩
    obtain ⟨fuel, rfl⟩ := Nat.exists_eq_succ_of_ne_zero hfuel.ne'
    simp [killLoop]
  | cons a l ih =>
    obtain ⟨rfl, haux⟩ := haux
    have hnodup := h.isRing.nodup
    rw [hl] at hnodup
    have hcur : aux ≠ s.current := by
      rintro rfl
      exact (List.nodup_cons.mp hnodup).1 (by simp)
    by_cases hinit : (s.processOf aux).pid = initPid
    · -- the init process stays
      obtain ⟨t, hrun, ht, hcurrent, hproc, hring⟩ :=
        @ih s (s.nextOf aux) (kept ++ [aux]) h (by simpa using hl) haux
      refine ⟨t, fun onYield fuel hfuel => ?_, ht, hcurrent, hproc, ?_⟩
      · obtain ⟨fuel, rfl⟩ := Nat.exists_eq_succ_of_ne_zero (Nat.ne_zero_of_lt hfuel)
        rw [killLoop, if_neg hcur]
        simp only [hinit, ne_eq, not_true_eq_false, and_false, if_false, Option.bind_some]
        apply hrun onYield
        simpa using hfuel
      · rw [hring]
        simp [hinit]
    · -- another process leaves
      have hpid : (s.processOf aux).pid ≠ (s.processOf s.current).pid := fun he =>
        hcur (h.slot_eq (by simp [hl]) (by simp [hl]) he)
      obtain ⟨l₁, p, hp⟩ : ∃ l₁ p, s.current :: kept = l₁ ++ [p] :=
        ⟨_, _, (List.dropLast_concat_getLast (List.cons_ne_nil s.current kept)).symm⟩
      have hsplit : ring s = l₁ ++ p :: aux :: l := by
        rw [hl, ← List.cons_append, hp]
        simp
      have hring' : ring (s.unlink p aux) = s.current :: (kept ++ l) := by
        rw [(isRing_unlink h.isRing hsplit).2, ← List.cons_append, hp]
        simp
      have hpmem : p ∈ s.current :: kept := by
        rw [hp]
        simp
      rw [← List.cons_append] at hnodup
      have hapart := (List.nodup_append.mp hnodup).2.2 p hpmem
      have hnext : Chain (s.unlink p aux).nextOf ((s.unlink p aux).nextOf aux) l s.current := by
        rw [unlink_nextOf_ne s aux (hapart aux List.mem_cons_self).symm]
        exact haux.congr fun y hy =>
          unlink_nextOf_ne s aux (hapart y (List.mem_cons_of_mem _ hy)).symm
      obtain ⟨t, hrun, ht, hcurrent, hproc, hring⟩ :=
        ih kept (h.unlink hsplit hinit) hring' hnext
      rw [unlink_processOf] at hproc hring hrun
      refine ⟨t, fun onYield fuel hfuel => ?_, ht, hcurrent, hproc, ?_⟩
      · obtain ⟨fuel, rfl⟩ := Nat.exists_eq_succ_of_ne_zero (Nat.ne_zero_of_lt hfuel)
        have hremove := h.removeProcessWith_other hsplit hinit onYield
        rw [killLoop, if_neg hcur]
        simp only [hpid, hinit, ne_eq, not_false_eq_true, and_self, if_true, hremove,
          Option.bind_some]
        apply hrun onYield
        simpa using hfuel
      · rw [hring]
        simp [hinit]
        rfl

/-- The numbers of the slots that hold the init process. -/
theorem map_filter_init (s : State) (l : List ℕ) :
    (l.filter fun a => (s.processOf a).pid = initPid).map (fun a => (s.processOf a).pid) =
      List.replicate (List.count initPid (l.map fun a => (s.processOf a).pid)) initPid := by
  rw [← List.filter_eq]
  rw [List.filter_map]
  rfl

/-- The current process and the init process are left, in their states, and nothing yields. -/
theorem killAllExceptCurrent_spec (h : WellFormedRing s) :
    ∃ t, (∀ onYield fuel, s.cardinalProcesses ≤ fuel →
        killAllExceptCurrent onYield fuel s = some t) ∧
      WellFormedRing t ∧ t.current = s.current ∧ (∀ a ∈ ring t, a ∈ ring s) ∧
      t.processOf = s.processOf ∧ t.cardinalProcesses = (pids t).length ∧
      pids t = if getCurrentPid s = initPid then [initPid] else [getCurrentPid s, initPid] := by
  obtain ⟨l, hl⟩ := h.isRing.eq_cons
  have hring := h.isRing
  rw [hl] at hring
  have hcur : getCurrentPid s = (s.processOf s.current).pid := if_neg h.current_ne_null
  have hlen : l.length < s.cardinalProcesses := by
    rw [← length_ring, hl]
    simp
  obtain ⟨t, hrun, ht, hcurrent, hproc, hring'⟩ := killLoop_spec [] h hl hring.chain.2
  refine ⟨t, fun onYield fuel hfuel => ?_, ht, hcurrent, fun a ha => ?_, hproc, ?_, ?_⟩
  · rw [killAllExceptCurrent, hcur]
    exact hrun onYield fuel (hlen.trans_le hfuel)
  · rw [hring', List.nil_append] at ha
    rw [hl]
    exact (List.filter_sublist.cons_cons s.current).subset ha
  · rw [pids_eq, List.length_map, length_ring]
  · have hpids := h.pids_nodup
    have hinit := h.init
    rw [pids_eq, hl, List.map_cons] at hpids hinit
    rw [pids_eq, hproc, hring', List.nil_append, List.map_cons, map_filter_init, hcur]
    obtain ⟨hnot, hnodup⟩ := List.nodup_cons.mp hpids
    split_ifs with hzero
    · rw [hzero] at hnot ⊢
      rw [List.count_eq_zero_of_not_mem hnot]
      rfl
    · have hmem := (List.mem_cons.mp hinit).resolve_left (Ne.symm hzero)
      rw [List.count_eq_one_of_mem hnodup hmem]
      rfl

/-- Process 2 of four processes and the init process restarts the shell. Two processes that follow
each other in the ring are removed, and the init process comes last. -/
theorem killAllExceptCurrent_five : ∃ s : History, pids s.state = [2, 4, 3, 1, 0] ∧
    ∃ t, (∀ onYield, killAllExceptCurrent onYield 5 s.state = some t) ∧ pids t = [2, 0] := by
  obtain ⟨s, hs, hview⟩ := reachable_restrict_of_execute IsStart
    (show IsStart started from ⟨emptySlots, pageAt 0, by decide, rfl⟩)
    (show (execute (guarded (fun s r => Request.Admissible s r) historyStep) started
      [.createProcess (pageAt 1), .createProcess (pageAt 2), .switch, .createProcess (pageAt 3),
        .createProcess (pageAt 4)]).map (fun s : History =>
          (pids s.state, s.state.cardinalProcesses, getCurrentPid s.state)) =
      some ([2, 4, 3, 1, 0], 5, 2) by decide +kernel)
  simp only [Prod.mk.injEq] at hview
  obtain ⟨hpids, hcard, hcur⟩ := hview
  have hwell := (reachable_historyInvariant hs).ring.wellFormedRing
  obtain ⟨t, hrun, -, -, -, -, -, hleft⟩ := killAllExceptCurrent_spec hwell
  refine ⟨s, hpids, t, fun onYield => hrun onYield 5 hcard.le, ?_⟩
  rw [hleft, hcur]
  rfl

end GatOS.Scheduler
