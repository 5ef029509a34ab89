import Mathlib.Order.CompletePartialOrder
import Mathlib.Order.Interval.Set.Disjoint
import GatOS.ByteMemory

/-!
# The packed kernel image

The program `ModulePacker` writes the kernel and the modules into one file, and `moduleLoader.c`
copies the modules out of it once it is in the memory. The variables of the loader and the screen
are not in the memory of the model, and no object ends behind the last address.
-/
namespace GatOS.KernelImage
open ByteMemory

abbrev File := List (BitVec 8)

/-! ### The packer -/

def bufferSize : ℕ := 128

/-- A file that is read: what is left of it, and the end-of-file indicator. -/
structure Stream where
  rest : File
  eof : Bool

def fopen (f : File) : Stream := ⟨f, false⟩

/-- The indicator is set by a call that asks for more than is left. -/
def fread (n : ℕ) (source : Stream) : File × Stream :=
  (source.rest.take n, ⟨source.rest.drop n, source.eof || source.rest.length < n⟩)

def writeFile (target : File) (source : Stream) : File :=
  if source.eof then target
  else
    let read := fread bufferSize source
    writeFile (target ++ read.1) read.2
termination_by if source.eof then 0 else source.rest.length + 1
decreasing_by
  rename_i heof
  by_cases hlt : source.rest.length < bufferSize
  · simp [fread, heof, hlt]
  · have hpos : 0 < bufferSize := by decide
    simp only [fread, heof, hlt, decide_false, Bool.or_false, Bool.false_eq_true, if_false,
      List.length_drop]
    omega

/-- `st_size` is cut to 32 bits. -/
def writeSize (target f : File) : File := target ++ wordBytes (BitVec.ofNat 32 f.length)

/-- Of the files `kernel :: modules`. -/
def buildImage (kernel : File) (modules : List File) : File :=
  let target := writeFile [] (fopen kernel)
  let extraBinaries := modules.length
  let target := target ++ wordBytes (BitVec.ofNat 32 extraBinaries)
  modules.foldl (fun target f => writeFile (writeSize target f) (fopen f)) target

/-! ### The loader -/

inductive Printed
  | text (string : String)
  | hex (value : ℕ)
  | dec (value : ℕ)
  | newline

structure State where
  memory : Bytes
  printed : List Printed

def State.print (s : State) (l : List Printed) : State := { s with printed := s.printed ++ l }

/-- The word and the address behind it. -/
def readUint32 (address : ℕ) (m : Bytes) : BitVec 32 × ℕ := (loadWord address m, address + 4)

def copyWords (destination source n : ℕ) (m : Bytes) : Bytes :=
  (List.range n).foldl
    (fun m i => storeWord (destination + 4 * i) (loadWord (source + 4 * i) m) m) m

def copyBytes (destination source n : ℕ) (m : Bytes) : Bytes :=
  (List.range n).foldl (fun m i => Function.update m (destination + i) (m (source + i))) m

def memcpy (destination source length : ℕ) (m : Bytes) : Bytes :=
  if destination % 4 = 0 ∧ source % 4 = 0 ∧ length % 4 = 0 then
    copyWords destination source (length / 4) m
  else copyBytes destination source length m

/-- The address behind the module, and what the call has done. -/
def loadModule (module targetModuleAddress : ℕ) (s : State) : ℕ × State :=
  let moduleSize := readUint32 module s.memory
  let module := moduleSize.2
  let s := s.print [.text "  Will copy module at 0x", .hex module, .text " to 0x",
    .hex targetModuleAddress, .text " (", .dec moduleSize.1.toNat, .text " bytes)"]
  let s := { s with memory := memcpy targetModuleAddress module moduleSize.1.toNat s.memory }
  (module + moduleSize.1.toNat, s.print [.text " [Done]", .newline])

/-- `n` more modules, the first of them with index `i`. The array of the targets has to be long
enough. -/
def loadFrom (targetModuleAddress : List ℕ) : ℕ → ℕ → ℕ → State → Option State
  | 0, _, _, s => some s
  | n + 1, i, currentModule, s =>
    targetModuleAddress[i]?.bind fun target =>
      let r := loadModule currentModule target s
      loadFrom targetModuleAddress n (i + 1) r.1 r.2

def loadModules (payloadStart : ℕ) (targetModuleAddress : List ℕ) (s : State) : Option State :=
  let moduleCount := readUint32 payloadStart s.memory
  loadFrom targetModuleAddress moduleCount.1.toNat 0 moduleCount.2 s

/-- The array in `initializeKernelBinary`: sample code, sample data, dummy, shell, editor and
fortune. -/
def moduleAddresses : List ℕ := [0x400000, 0x500000, 0xA00000, 0xC00000, 0xE00000, 0x600000]

/-! ### The format -/

/-- A module behind its size. -/
def frame (f : File) : File := wordBytes (BitVec.ofNat 32 f.length) ++ f

/-- What stands behind the kernel. -/
def payload (modules : List File) : File :=
  wordBytes (BitVec.ofNat 32 modules.length) ++ modules.flatMap frame

section

variable {a base destination source n i cursor : ℕ} {m : Bytes} {s t : State} {f kernel : File}
  {modules : List File} {targets : List ℕ}

/-- The loop ends with the last byte, also when the length is a multiple of the buffer's. -/
theorem writeFile_eq (target : File) (source : Stream) :
    writeFile target source = if source.eof then target else target ++ source.rest := by
  fun_induction writeFile target source with
  | case1 target source heof => rw [if_pos heof]
  | case2 target source heof read ih =>
    have hread : read = fread bufferSize source := rfl
    rw [ih, hread, if_neg heof]
    simp only [fread, heof, Bool.false_or, decide_eq_true_eq]
    split_ifs with hlt
    · rw [List.take_of_length_le hlt.le]
    · rw [List.append_assoc, List.take_append_drop]

theorem writeFile_fopen (target f : File) : writeFile target (fopen f) = target ++ f :=
  writeFile_eq target (fopen f)

/-- The count, the sizes and the modules follow each other without a gap. -/
theorem buildImage_eq (kernel : File) (modules : List File) :
    buildImage kernel modules = kernel ++ payload modules := by
  have hloop : ∀ (l : List File) (target : File),
      l.foldl (fun target f => writeFile (writeSize target f) (fopen f)) target =
        target ++ l.flatMap frame := by
    intro l
    induction l with
    | nil => simp
    | cons f l ih =>
      intro target
      rw [List.foldl_cons, ih, writeFile_fopen, writeSize, List.flatMap_cons, frame]
      simp only [List.append_assoc]
  rw [buildImage, hloop, writeFile_fopen, List.nil_append, List.append_assoc, payload]

/-! ### Copying -/

theorem copyBytes_eq (hdisjoint : ∀ i < n, ∀ j < n, source + i ≠ destination + j) :
    copyBytes destination source n m = copied destination source n m := by
  induction n with
  | zero => rw [copied_zero]; rfl
  | succ n ih =>
    have hbefore := ih fun i hi j hj => hdisjoint i (by omega) j (by omega)
    rw [copyBytes, List.range_succ, List.foldl_append, ← copyBytes, hbefore]
    simp only [List.foldl_cons, List.foldl_nil]
    -- the byte that is read has not been written before
    have hread : copied destination source n m (source + n) = m (source + n) := by
      rw [copied, if_neg]
      rintro ⟨hle, hlt⟩
      exact hdisjoint n (by omega) (source + n - destination) (by omega) (by omega)
    rw [hread]
    funext b
    by_cases hb : b = destination + n
    · rw [hb, Function.update_self, copied_inside (by omega)]
    · rw [Function.update_of_ne hb, copied, copied]
      by_cases hin : destination ≤ b ∧ b < destination + n
      · rw [if_pos hin, if_pos (by omega)]
      · rw [if_neg hin, if_neg (by omega)]

theorem copyWords_eq (hdisjoint : ∀ i < 4 * n, ∀ j < 4 * n, source + i ≠ destination + j) :
    copyWords destination source n m = copied destination source (4 * n) m := by
  induction n with
  | zero => rw [Nat.mul_zero, copied_zero]; rfl
  | succ n ih =>
    have hbefore := ih fun i hi j hj => hdisjoint i (by omega) j (by omega)
    rw [copyWords, List.range_succ, List.foldl_append, ← copyWords, hbefore]
    simp only [List.foldl_cons, List.foldl_nil]
    have hread : ∀ i < 4, copied destination source (4 * n) m (source + 4 * n + i) =
        m (source + 4 * n + i) := fun i hi => by
      rw [copied, if_neg]
      rintro ⟨hle, hlt⟩
      exact hdisjoint (4 * n + i) (by omega) (source + 4 * n + i - destination) (by omega)
        (by omega)
    funext b
    by_cases hb : destination + 4 * n ≤ b ∧ b < destination + 4 * n + 4
    · obtain ⟨k, rfl⟩ := Nat.exists_eq_add_of_le hb.1
      rw [storeWord_at _ _ (by omega), loadWord_extract (by omega), hread k (by omega),
        Nat.add_assoc, Nat.add_assoc, copied_inside (by omega)]
    · rw [storeWord, if_neg hb, copied, copied]
      by_cases hin : destination ≤ b ∧ b < destination + 4 * n
      · rw [if_pos hin, if_pos (by omega)]
      · rw [if_neg hin, if_neg (by omega)]

/-- Word by word or byte by byte, the result is the same. -/
theorem memcpy_eq
    (hdisjoint : Disjoint (Set.Ico destination (destination + n)) (Set.Ico source (source + n))) :
    memcpy destination source n m = copied destination source n m := by
  have hne : ∀ i < n, ∀ j < n, source + i ≠ destination + j := by
    intro i hi j hj he
    have hin : destination + j ∈ Set.Ico destination (destination + n) := ⟨by omega, by omega⟩
    exact Set.disjoint_left.mp hdisjoint hin ⟨by omega, by omega⟩
  unfold memcpy
  split_ifs with haligned
  · have hlength : 4 * (n / 4) = n := by omega
    rw [copyWords_eq (by rwa [hlength]), hlength]
  · exact copyBytes_eq hne

/-! ### Loading -/

/-- The bytes from address `a` on that a file takes. -/
def range (a : ℕ) (f : File) : Set ℕ := Set.Ico a (a + f.length)

theorem add_mem_range {j : ℕ} (hj : j < f.length) : a + j ∈ range a f := ⟨by omega, by omega⟩

theorem length_frame (f : File) : (frame f).length = 4 + f.length := by
  rw [frame, List.length_append, length_wordBytes]

/-- A module is copied behind its size field, and the cursor moves to its end. -/
theorem loadModule_spec (hsize : f.length < 2 ^ 32) (hframe : Holds cursor (frame f) s.memory)
    (hdisjoint : Disjoint (range a f) (range cursor (frame f))) :
    (loadModule cursor a s).1 = cursor + (frame f).length ∧
      (loadModule cursor a s).2.memory = copied a (cursor + 4) f.length s.memory := by
  obtain ⟨hword, -⟩ := holds_append.mp hframe
  have hlength : (loadWord cursor s.memory).toNat = f.length := by
    rw [hword.loadWord, BitVec.toNat_ofNat, Nat.mod_eq_of_lt hsize]
  have hsource : Set.Ico (cursor + 4) (cursor + 4 + f.length) ⊆ range cursor (frame f) := by
    intro b hb
    rw [range, length_frame]
    exact ⟨by have := hb.1; omega, by have := hb.2; omega⟩
  have hcopy := memcpy_eq (m := s.memory) (hdisjoint.mono_right hsource)
  unfold loadModule
  simp only [readUint32, State.print, hlength, length_frame]
  exact ⟨by omega, hcopy⟩

theorem holds_copied (h : Holds source f m) : Holds a f (copied a source f.length m) := by
  intro i hi
  rw [copied_inside hi]
  exact h i hi

theorem copied_of_notMem {b : ℕ} (h : b ∉ range a f) : copied a source f.length m b = m b := by
  refine copied_outside ?_
  by_contra hin
  exact h ⟨by omega, by omega⟩

/-- The loop, from a cursor at which the remaining modules stand. -/
theorem loadFrom_spec {l : List (ℕ × File)}
    (htargets : ∀ k (hk : k < l.length), targets[i + k]? = some l[k].1)
    (hsize : ∀ p ∈ l, p.2.length < 2 ^ 32)
    (hholds : Holds cursor (l.flatMap fun p => frame p.2) s.memory)
    (hpairs : l.Pairwise fun p q => Disjoint (range p.1 p.2) (range q.1 q.2))
    (hsource : ∀ p ∈ l, Disjoint (range p.1 p.2) (range cursor (l.flatMap fun p => frame p.2))) :
    ∃ t, loadFrom targets l.length i cursor s = some t ∧ (∀ p ∈ l, Holds p.1 p.2 t.memory) ∧
      ∀ b, (∀ p ∈ l, b ∉ range p.1 p.2) → t.memory b = s.memory b := by
  induction l generalizing i cursor s with
  | nil => exact ⟨s, rfl, by simp, fun _ _ => rfl⟩
  | cons p l ih =>
    obtain ⟨target, f⟩ := p
    have htarget : targets[i]? = some target := htargets 0 (by simp)
    simp only [List.flatMap_cons] at hholds
    obtain ⟨hframe, hrest⟩ := holds_append.mp hholds
    obtain ⟨hfirst, hpairs⟩ := List.pairwise_cons.mp hpairs
    have hlength : (((target, f) :: l).flatMap fun p => frame p.2).length =
        (frame f).length + (l.flatMap fun p => frame p.2).length := by
      rw [List.flatMap_cons, List.length_append]
    have hbegin : range cursor (frame f) ⊆
        range cursor (((target, f) :: l).flatMap fun p => frame p.2) := by
      unfold range
      rw [hlength]
      exact Set.Ico_subset_Ico_right (by omega)
    have hend : range (cursor + (frame f).length) (l.flatMap fun p => frame p.2) ⊆
        range cursor (((target, f) :: l).flatMap fun p => frame p.2) := by
      unfold range
      rw [hlength]
      exact Set.Ico_subset_Ico (by omega) (by omega)
    have hown := hsource _ List.mem_cons_self
    obtain ⟨hcursor, hmemory⟩ := loadModule_spec (hsize _ List.mem_cons_self) hframe
      (hown.mono_right hbegin)
    -- the modules that remain have not been overwritten
    have hkeep : Holds (cursor + (frame f).length) (l.flatMap fun p => frame p.2)
        (loadModule cursor target s).2.memory := by
      rw [hmemory]
      refine hrest.congr fun j hj => copied_of_notMem fun hin => ?_
      exact Set.disjoint_left.mp (hown.mono_right hend) hin (add_mem_range hj)
    obtain ⟨t, hrun, hall, hframe'⟩ := ih (i := i + 1) (s := (loadModule cursor target s).2)
      (fun k hk => by
        rw [Nat.add_assoc, Nat.add_comm 1 k]
        exact htargets (k + 1) (by simpa using hk))
      (fun p hp => hsize p (List.mem_cons_of_mem _ hp)) hkeep hpairs
      (fun p hp => (hsource p (List.mem_cons_of_mem _ hp)).mono_right hend)
    refine ⟨t, ?_, fun p hp => ?_, fun b hb => ?_⟩
    · rw [List.length_cons, loadFrom, htarget, Option.bind_some]
      simp only [hcursor]
      exact hrun
    · rcases List.mem_cons.mp hp with rfl | hp
      · have hcopy : Holds target f (loadModule cursor target s).2.memory := by
          rw [hmemory]
          have hbytes := (holds_append.mp hframe).2
          rw [length_wordBytes] at hbytes
          exact holds_copied hbytes
        refine hcopy.congr fun j hj => hframe' _ fun p hp hin => ?_
        exact Set.disjoint_left.mp (hfirst p hp) (add_mem_range hj) hin
      · exact hall p hp
    · rw [hframe' b fun p hp => hb p (List.mem_cons_of_mem _ hp), hmemory]
      exact copied_of_notMem (hb _ List.mem_cons_self)

end

/-- The modules of the image are copied to their targets, and nothing else is changed. -/
theorem image_round_trip {kernel : File} {modules : List File} {targets : List ℕ}
    {base endOfKernelBinary : ℕ} {s : State} (hcount : modules.length ≤ 6)
    (htargets : modules.length ≤ targets.length)
    (hsize : ∀ f ∈ modules, f.length < 2 ^ 32)
    (hload : Holds base (buildImage kernel modules) s.memory)
    (hend : base + kernel.length = endOfKernelBinary)
    (hapart : ∀ i j (hi : i < modules.length) (hj : j < modules.length), i ≠ j →
      Disjoint (range targets[i] modules[i]) (range targets[j] modules[j]))
    (hpayload : ∀ i (hi : i < modules.length),
      Disjoint (range targets[i] modules[i]) (range endOfKernelBinary (payload modules))) :
    ∃ t, loadModules endOfKernelBinary targets s = some t ∧
      (∀ i (hi : i < modules.length), Holds targets[i] modules[i] t.memory) ∧
      ∀ b, (∀ i (hi : i < modules.length), b ∉ range targets[i] modules[i]) →
        t.memory b = s.memory b := by
  have hlength : (targets.zip modules).length = modules.length := by
    rw [List.length_zip]
    omega
  have hmodules : (targets.zip modules).map Prod.snd = modules := List.map_snd_zip htargets
  have hget : ∀ i (hi : i < modules.length), (targets[i], modules[i]) ∈ targets.zip modules :=
    fun i hi => List.mem_iff_getElem.mpr ⟨i, by omega, List.getElem_zip⟩
  have hmem : ∀ p ∈ targets.zip modules, ∃ (i : ℕ) (hi : i < modules.length),
      p = (targets[i], modules[i]) := by
    intro p hp
    obtain ⟨i, hi, rfl⟩ := List.mem_iff_getElem.mp hp
    exact ⟨i, by omega, List.getElem_zip⟩
  have hflat : (targets.zip modules).flatMap (fun p => frame p.2) = modules.flatMap frame := by
    conv_rhs => rw [← hmodules, List.flatMap_map]
  -- the count stands behind the kernel, the modules behind the count
  rw [buildImage_eq, holds_append, hend] at hload
  obtain ⟨hword, hframes⟩ := holds_append.mp hload.2
  rw [length_wordBytes, ← hflat] at hframes
  have hnumber : (loadWord endOfKernelBinary s.memory).toNat = (targets.zip modules).length := by
    rw [hword.loadWord, BitVec.toNat_ofNat, hlength]
    omega
  have hsub : range (endOfKernelBinary + 4) ((targets.zip modules).flatMap fun p => frame p.2) ⊆
      range endOfKernelBinary (payload modules) := by
    rw [hflat, payload, range, range, List.length_append, length_wordBytes]
    exact Set.Ico_subset_Ico (by omega) (by omega)
  have hzip : ∀ k (hk : k < (targets.zip modules).length),
      targets[0 + k]? = some (targets.zip modules)[k].1 := by
    intro k hk
    rw [Nat.zero_add, List.getElem?_eq_getElem (by omega), List.getElem_zip]
  have hpairs : (targets.zip modules).Pairwise
      fun p q => Disjoint (range p.1 p.2) (range q.1 q.2) := by
    refine List.pairwise_iff_getElem.mpr fun i j hi hj hij => ?_
    simp only [List.getElem_zip]
    exact hapart i j (by omega) (by omega) hij.ne
  obtain ⟨t, hrun, hall, hkeep⟩ := loadFrom_spec hzip
    (fun p hp => hsize _ (List.of_mem_zip hp).2) hframes hpairs (fun p hp => by
      obtain ⟨i, hi, rfl⟩ := hmem p hp
      exact (hpayload i hi).mono_right hsub)
  refine ⟨t, ?_, fun i hi => hall _ (hget i hi), fun b hb => hkeep b fun p hp => ?_⟩
  · rw [loadModules, readUint32]
    simp only [hnumber]
    exact hrun
  · obtain ⟨i, hi, rfl⟩ := hmem p hp
    exact hb i hi

/-! ### A small image -/

def smallKernel : File := [0x90, 0x90, 0x90, 0xC3]

/-- The first one is copied word by word, the second one byte by byte. -/
def smallModules : List File := [[1, 2, 3, 4], [5]]

/-- The image is loaded at 1 MiB. -/
def smallState : State where
  memory := fun b => (buildImage smallKernel smallModules).getD (b - 0x100000) 0
  printed := []

theorem image_round_trip_small : ∃ t, loadModules 0x100004 moduleAddresses smallState = some t ∧
    Holds 0x400000 [1, 2, 3, 4] t.memory ∧ Holds 0x500000 [5] t.memory := by
  have hload : Holds 0x100000 (buildImage smallKernel smallModules) smallState.memory := by
    intro i hi
    show (buildImage smallKernel smallModules).getD (0x100000 + i - 0x100000) 0 = _
    rw [Nat.add_sub_cancel_left, List.getD_eq_getElem?_getD, List.getElem?_eq_getElem hi,
      Option.getD_some]
  have hindex : ∀ i < smallModules.length, i = 0 ∨ i = 1 := by decide
  have hlength : (payload smallModules).length = 17 := by
    simp [payload, smallModules, length_frame]
  have happly := @image_round_trip smallKernel smallModules moduleAddresses 0x100000 0x100004
    smallState (by decide) (by decide) (by decide) hload rfl
    (fun i j hi hj hij => by
      rcases hindex i hi with rfl | rfl <;> rcases hindex j hj with rfl | rfl
      · exact absurd rfl hij
      · exact Set.Ico_disjoint_Ico.mpr (by simp [moduleAddresses, smallModules])
      · exact Set.Ico_disjoint_Ico.mpr (by simp [moduleAddresses, smallModules])
      · exact absurd rfl hij)
    (fun i hi => by
      refine Set.Ico_disjoint_Ico.mpr ?_
      rw [hlength]
      rcases hindex i hi with rfl | rfl <;> simp [moduleAddresses, smallModules])
  obtain ⟨t, hrun, hall, -⟩ := happly
  exact ⟨t, hrun, hall 0 (by decide), hall 1 (by decide)⟩

end GatOS.KernelImage
