import GatOS.PipeRelease

/-!
# The names of pipes

A registry of names beside the tables says what `openPipe` has to find. `initializePipes` fills
the table of names with a text where the search for a place looks for `NULL`.
-/
namespace GatOS.PipeAdmin
open Scheduler Sync IPC Transition ByteMemory

/-! ### The registry -/

/-- What a call is about. -/
inductive Target
  | create (name : ℕ)
  | lookup (name : ℕ)
  | close (pipe : PipeRef)

/-- A call that goes on is the one that was suspended. -/
def PipeCall.target (s : Admin) : PipeCall → Option Target
  | .createPipe name _ => some (.create name)
  | .openPipe name _ => some (.lookup name)
  | .closePipe pipe => some (.close pipe)
  | .resume _ => (s.rest s.pid).map fun
    | .openPipe name => .lookup name
    | .createPipe name => .create name
    | .createPipeEnd name _ => .create name

/-- The pipes that were created and not closed since, with the texts of their names. -/
abbrev Names := List (List ℤ × PipeRef)

namespace Names

def find (text : List ℤ) (names : Names) : Option PipeRef :=
  (List.find? (fun e => e.1 = text) names).map Prod.snd

/-- A call that has returned is entered. -/
def enter (strings : ℕ → List ℤ) (names : Names) : Target → Outcome → Names
  | .create name, .returned (some pipe) => (strings name, pipe) :: names
  | .close pipe, .returned _ => List.filter (fun e => e.2 ≠ pipe) names
  | _, _ => names

/-- What the call has to return. -/
def Right (strings : ℕ → List ℤ) (names : Names) (o : Outcome) : Target → Prop
  | .create _ => ∃ pipe, o = .returned (some pipe)
  | .lookup name => o = .returned (names.find (strings name))
  | .close _ => o = .returned none

end Names

/-- The tables and the registry. -/
structure Registry where
  admin : Admin
  names : Names

/-- `newline` is the address of the text "/n", `name` that of "ipcAdminMutex". -/
def initializePipes (newline name : ℕ) (s : Admin) : Option Admin :=
  (lockMutex s.kernel.adminMutex 0 s.kernel).bind fun r =>
    if r.1 then
      (getMutexRest name r.2).map fun q =>
        { s with
          sync := { s.sync with kernel := q.2 }
          pipeNames := fun i => if 0 ≤ i ∧ i < maxPipes then newline else s.pipeNames i
          pipes := fun i => if 0 ≤ i ∧ i < maxPipes then none else s.pipes i
          ipcAdminMutex := q.1 }
    else none

/-- `initializePipes` has been called at the start. -/
structure IsRegistryStart (newline : ℕ) (s : Registry) : Prop where
  text : newline ≠ null
  admin : ∃ boot name, IsAdminBoot boot ∧ initializePipes newline name boot = some s.admin
  names : s.names = []

/-- When a call returns what it has to: `openPipe` does, unless the name is "/n". -/
def Finds (newline : ℕ) (strings : ℕ → List ℤ) : Target → Prop
  | .create _ => False
  | .lookup name => strings name ≠ strings newline
  | .close _ => True

/-! ### The tables never change -/

/-- The table of names is full of one text, and there is no pipe. -/
structure Unused (newline : ℕ) (s : Admin) : Prop where
  text : newline ≠ null
  pipeNames : ∀ i : ℤ, 0 ≤ i → i < maxPipes → s.pipeNames i = newline
  pipes : ∀ i, s.pipes i = none
  last : s.lastPipeName = 0 ∨ s.lastPipeName = noSpaceLeft
  rest : ∀ p name index, s.rest p ≠ some (.createPipeEnd name index)
  created : s.created = []

section

variable {newline name : ℕ} {s t : Admin} {o : Outcome} {garbage mutex : ℤ}

/-- All entries are compared with the same text. -/
theorem Unused.getPipeNameIndex (h : Unused newline s) (name : ℕ) :
    s.getPipeNameIndex name =
      if s.kernel.strings name = s.kernel.strings newline then some 0 else none := by
  unfold Admin.getPipeNameIndex
  split_ifs with hname
  · have hzero : strcmp (s.kernel.strings (s.pipeNames 0)) (s.kernel.strings name) = 0 := by
      rw [h.pipeNames 0 (by decide) (by decide), strcmp_eq_zero_iff, hname]
    simp [firstIndex, maxPipes, List.range_succ_eq_map, hzero]
  · refine Option.not_isSome_iff_eq_none.mp fun hsome => ?_
    obtain ⟨i, h0, hlt, hi⟩ := firstIndex_isSome.mp hsome
    rw [decide_eq_true_iff, h.pipeNames i h0 hlt, strcmp_eq_zero_iff] at hi
    exact hname hi.symm

theorem Unused.getMiddleSpace (h : Unused newline s) : s.getMiddleSpace = noSpaceLeft := by
  have hnone : (firstIndex maxPipes fun i => s.pipeNames i = null) = none := by
    refine Option.not_isSome_iff_eq_none.mp fun hsome => ?_
    obtain ⟨i, h0, hlt, hi⟩ := firstIndex_isSome.mp hsome
    rw [decide_eq_true_iff, h.pipeNames i h0 hlt] at hi
    exact h.text hi
  rw [Admin.getMiddleSpace, hnone]
  rfl

theorem Unused.congr (h : Unused newline s) (htables : SameTables s t) (hrest : t.rest = s.rest)
    (hcreated : t.created = s.created) : Unused newline t := by
  refine ⟨h.text, ?_, ?_, ?_, ?_, hcreated.trans h.created⟩
  · rw [htables.pipeNames]
    exact h.pipeNames
  · rw [htables.pipes]
    exact h.pipes
  · rw [htables.lastPipeName]
    exact h.last
  · rw [hrest]
    exact h.rest

/-- `openPipe` finds nothing, or the entry of a pipe that is not there. -/
theorem Unused.openPipeRest (h : Unused newline s) (hrun : s.openPipeRest name = some (o, t)) :
    t = s ∧ o = if s.kernel.strings name = s.kernel.strings newline then .fault
      else .returned none := by
  unfold Admin.openPipeRest at hrun
  rw [h.getPipeNameIndex name] at hrun
  split_ifs at hrun ⊢ with hname
  · dsimp only at hrun
    rw [h.pipes] at hrun
    obtain ⟨rfl, rfl⟩ := Prod.mk.inj (Option.some.inj hrun)
    exact ⟨rfl, rfl⟩
  · obtain ⟨rfl, rfl⟩ := Prod.mk.inj (Option.some.inj hrun)
    exact ⟨rfl, rfl⟩

/-- `createPipe` finds no place, and then reads the table in front of its first entry. -/
theorem Unused.createPipeRest (h : Unused newline s)
    (hrun : s.createPipeRest name garbage = some (o, t)) :
    o = .fault ∨ (o = .returned none ∧ Unused newline t) := by
  have hstart : s.createPipeStart name = (.fault, s) ∨
      s.createPipeStart name = (.null, { s with lastPipeName := noSpaceLeft }) := by
    unfold Admin.createPipeStart
    rcases h.last with hlast | hlast
    · right
      have hused : s.lastPipeName ≥ maxPipes ∨ s.pipeNames s.lastPipeName ≠ null := by
        rw [hlast, h.pipeNames 0 (by decide) (by decide)]
        exact Or.inr h.text
      rw [if_neg (by omega), if_pos hused, h.getMiddleSpace]
      rfl
    · left
      rw [if_pos (by rw [hlast]; decide)]
  unfold Admin.createPipeRest at hrun
  rcases hstart with hfault | hnull
  · rw [hfault] at hrun
    obtain ⟨rfl, -⟩ := Prod.mk.inj (Option.some.inj hrun)
    exact Or.inl rfl
  · rw [hnull] at hrun
    obtain ⟨rfl, rfl⟩ := Prod.mk.inj (Option.some.inj hrun)
    exact Or.inr ⟨rfl, h.text, h.pipeNames, h.pipes, Or.inr rfl, h.rest, h.created⟩

/-- A call that waits for its first mutex. -/
theorem Unused.lock (h : Unused newline s) {rest : AdminRest} {returned : Bool}
    (hrest : ∀ name index, rest ≠ .createPipeEnd name index)
    (hlock : s.lock mutex garbage rest = some (returned, t)) : Unused newline t := by
  obtain ⟨-, htables, -⟩ := lock_kept hlock
  obtain ⟨⟨b, k⟩, -, hpair⟩ := Option.map_eq_some_iff.mp hlock
  cases b with
  | true =>
    obtain ⟨-, rfl⟩ := Prod.mk.inj hpair
    exact h.congr htables rfl rfl
  | false =>
    obtain ⟨-, rfl⟩ := Prod.mk.inj hpair
    refine ⟨h.text, h.pipeNames, h.pipes, h.last, fun p name index => ?_, h.created⟩
    show assign s.rest s.pid (some rest) p ≠ _
    by_cases hp : p = s.pid
    · rw [hp, assign_self]
      exact fun he => hrest name index (Option.some.inj he)
    · rw [assign_ne _ _ hp]
      exact h.rest p name index

theorem Unused.wake (h : Unused newline s) (mutex : ℤ) : Unused newline (s.wake mutex) := by
  refine ⟨h.text, h.pipeNames, h.pipes, h.last, fun p name index => ?_, h.created⟩
  show assign s.rest s.pid none p ≠ _
  by_cases hp : p = s.pid
  · rw [hp, assign_self]
    exact fun he => nomatch he
  · rw [assign_ne _ _ hp]
    exact h.rest p name index

/-- What a call that has returned answers. -/
def Answers (newline : ℕ) (strings : ℕ → List ℤ) (o : Outcome) : Target → Prop
  | .create _ => ∀ pipe, o ≠ .returned (some pipe)
  | .lookup name => o = if strings name = strings newline then .fault else .returned none
  | .close _ => False

theorem Unused.createPipe_answers (h : Unused newline s)
    (hrun : s.createPipeRest name garbage = some (o, t)) (strings : ℕ → List ℤ) :
    (o ≠ .fault → Unused newline t) ∧ Answers newline strings o (.create name) := by
  rcases h.createPipeRest hrun with rfl | ⟨rfl, ht⟩
  · exact ⟨fun ho => absurd rfl ho, fun pipe he => nomatch he⟩
  · exact ⟨fun _ => ht, fun pipe he => by simp at he⟩

/-- A call that begins with the mutex. -/
theorem Unused.lockThen (h : Unused newline s) {rest : AdminRest} {target : Target}
    {proceed : Admin → Option (Outcome × Admin)}
    (hrest : ∀ name index, rest ≠ .createPipeEnd name index)
    (hproceed : ∀ u, Unused newline u → u.kernel.strings = s.kernel.strings →
      proceed u = some (o, t) →
      (o ≠ .fault → Unused newline t) ∧ Answers newline s.kernel.strings o target)
    (hrun : s.lockThen mutex garbage rest proceed = some (o, t)) :
    (o ≠ .fault → Unused newline t) ∧
      ((∃ m, o = .suspended m) ∨ Answers newline s.kernel.strings o target) := by
  obtain ⟨⟨returned, u⟩, hlock, hrun⟩ := Option.bind_eq_some_iff.mp hrun
  have hu := h.lock hrest hlock
  obtain ⟨-, -, hstrings⟩ := lock_kept hlock
  cases returned with
  | true =>
    obtain ⟨ht, hanswer⟩ := hproceed u hu hstrings hrun
    exact ⟨ht, Or.inr hanswer⟩
  | false =>
    obtain ⟨rfl, rfl⟩ := Prod.mk.inj (Option.some.inj hrun)
    exact ⟨fun _ => hu, Or.inl ⟨mutex, rfl⟩⟩

/-- A call leaves the tables unused, and is suspended or answers as the unused tables do. -/
theorem Unused.run (h : Unused newline s) {c : PipeCall} {target : Target}
    (htarget : c.target s = some target) (hrun : c.run s = some (o, t)) :
    (o ≠ .fault → Unused newline t) ∧
      ((∃ m, o = .suspended m) ∨ Answers newline s.kernel.strings o target) := by
  have hopen : ∀ {u : Admin} {name : ℕ}, Unused newline u →
      u.kernel.strings = s.kernel.strings → u.openPipeRest name = some (o, t) →
      (o ≠ .fault → Unused newline t) ∧ Answers newline s.kernel.strings o (.lookup name) := by
    intro u name hu hstrings hrun
    obtain ⟨rfl, ho⟩ := hu.openPipeRest hrun
    rw [hstrings] at ho
    exact ⟨fun _ => hu, ho⟩
  cases c with
  | createPipe name garbage =>
    obtain rfl := Option.some.inj htarget
    simp only [PipeCall.run] at hrun
    split_ifs at hrun
    exact h.lockThen (by simp)
      (fun u hu _ hrest => hu.createPipe_answers hrest _) hrun
  | openPipe name garbage =>
    obtain rfl := Option.some.inj htarget
    simp only [PipeCall.run] at hrun
    split_ifs at hrun
    exact h.lockThen (by simp) (fun u hu hstrings hrest => hopen hu hstrings hrest)
      hrun
  | closePipe pipe =>
    simp [PipeCall.run, h.created] at hrun
  | resume garbage =>
    simp only [PipeCall.run, Admin.resume] at hrun
    simp only [PipeCall.target] at htarget
    split at hrun
    · exact absurd hrun (by simp)
    · next name hrest =>
      rw [hrest] at htarget
      obtain rfl := Option.some.inj htarget
      obtain ⟨ht, hanswer⟩ := hopen (h.wake s.ipcAdminMutex) rfl hrun
      exact ⟨ht, Or.inr hanswer⟩
    · next name hrest =>
      rw [hrest] at htarget
      obtain rfl := Option.some.inj htarget
      obtain ⟨ht, hanswer⟩ := (h.wake s.ipcAdminMutex).createPipe_answers hrun s.kernel.strings
      exact ⟨ht, Or.inr hanswer⟩
    · next name index hrest => exact absurd hrest (h.rest _ _ _)

/-- There is never a pipe in the tables, nor one in the registry. -/
structure RegistryInvariant (newline : ℕ) (s : Registry) : Prop where
  unused : Unused newline s.admin
  names : s.names = []

theorem IsRegistryStart.invariant {s : Registry} (h : IsRegistryStart newline s) :
    RegistryInvariant newline s := by
  obtain ⟨htext, ⟨boot, name, hboot, hinit⟩, hnames⟩ := h
  obtain ⟨r, -, hinit⟩ := Option.bind_eq_some_iff.mp hinit
  split_ifs at hinit
  obtain ⟨q, -, hadmin⟩ := Option.map_eq_some_iff.mp hinit
  refine ⟨⟨htext, fun i h0 hlt => ?_, fun i => ?_, ?_, fun p name index => ?_, ?_⟩, hnames⟩
  · rw [← hadmin]
    exact if_pos ⟨h0, hlt⟩
  · rw [← hadmin]
    show (if 0 ≤ i ∧ i < maxPipes then none else boot.pipes i) = none
    rw [hboot.pipes, ite_self]
  · rw [← hadmin]
    exact Or.inl hboot.lastPipeName
  · rw [← hadmin]
    show boot.rest p ≠ _
    rw [hboot.rest]
    exact fun he => nomatch he
  · rw [← hadmin]
    exact hboot.created

end

/-! ### A run -/

end GatOS.PipeAdmin
