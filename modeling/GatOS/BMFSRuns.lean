import GatOS.BMFSStore
import GatOS.Transition

/-!
# Runs of the disk utility

The commands of the utility, one after the other on the same disk, answer like a store of files
that gives each new file the first free blocks. `create` needs some care: the loops misjudge a
full directory that has deleted records, and look for room behind the ends of deleted files.
-/
namespace GatOS.BMFS
open Octets MachineInt FirstFit FileStore Transition

/-! ### The store that answers -/

/-- The lines show each file once. -/
structure Lists (lines : List (List UInt8 × ℕ × ℕ)) (s : Files) : Prop where
  nodup : (lines.map Prod.fst).Nodup
  mem : ∀ name size mib, (name, size, mib) ∈ lines ↔
    ∃ f, s name = some f ∧ size = f.content.length ∧ mib = 2 * f.reserved

/-- A new file of at least `maxsize` MiB in the first free blocks. The directory has 64 records. -/
inductive Creates (last : ℕ) (filename : List UInt8) (maxsize : ℕ) (s : Files) :
    Reply → Files → Prop
  | fileExists (h : s filename ≠ none) : Creates last filename maxsize s .fileExists s
  | full (h : s filename = none) (hfull : s.count = 64) :
    Creates last filename maxsize s .noFreeEntries s
  | noRoom (h : s filename = none) (hcount : s.count < 64)
      (hroom : ∀ a, ¬ s.Free 1 last ((maxsize + 1) / 2) a) :
    Creates last filename maxsize s (.cannotCreate (2 * ((maxsize + 1) / 2))) s
  | created {a : ℕ} (h : s filename = none) (hcount : s.count < 64)
      (hleast : IsLeast {a | s.Free 1 last ((maxsize + 1) / 2) a} a) :
    Creates last filename maxsize s .complete (s.create filename a ((maxsize + 1) / 2))

/-- What a store answers to a command, and the store afterwards. -/
inductive Serves (last : ℕ) (s : Files) : Command → Reply → Files → Prop
  | list {lines} (h : Lists lines s) : Serves last s .list (.listing lines) s
  | format : Serves last s (.format true) .formatComplete Store.empty
  | aborted : Serves last s (.format false) .formatAborted s
  | invalid {filename filesize} (h : filesize < 1) :
    Serves last s (.create filename filesize) .invalidFileSize s
  | create {filename filesize r s'} (h : 1 ≤ filesize)
      (hr : Creates last filename filesize.toNat s r s') :
    Serves last s (.create filename filesize) r s'
  | invalidAsked {filename filesize} (h : filesize % 2 ^ 32 < 1) :
    Serves last s (.createAsked filename filesize) .invalidFileSize s
  | createAsked {filename filesize r s'} (h : 1 ≤ filesize % 2 ^ 32)
      (hr : Creates last filename (filesize % 2 ^ 32).toNat s r s') :
    Serves last s (.createAsked filename filesize) r s'
  | readMissing {filename opens} (h : s filename = none) :
    Serves last s (.read filename opens) .fileNotFound s
  | readClosed {filename f} (h : s filename = some f) :
    Serves last s (.read filename false) (.couldNotOpen filename) s
  | read {filename f} (h : s filename = some f) :
    Serves last s (.read filename true) (.saved filename f.content) s
  | writeMissing {filename tfile} (h : s filename = none) :
    Serves last s (.write filename tfile) .fileNotFound s
  | writeClosed {filename f} (h : s filename = some f) :
    Serves last s (.write filename none) (.couldNotOpen filename) s
  | notEnoughSpace {filename f data} (h : s filename = some f)
      (hroom : f.reserved * blockSize < data.length) :
    Serves last s (.write filename (some data)) .notEnoughSpace s
  | write {filename f data} (h : s filename = some f)
      (hroom : data.length ≤ f.reserved * blockSize) :
    Serves last s (.write filename (some data)) .complete (s.write filename data)
  | deleteMissing {filename} (h : s filename = none) :
    Serves last s (.delete filename) .fileNotFound s
  | delete {filename f} (h : s filename = some f) :
    Serves last s (.delete filename) .complete (s.delete filename)
  | unknown : Serves last s .unknown .unknownCommand s

def storeSystem (last : ℕ) : System Files (Command × Reply) where
  init s := s = Store.empty
  step s a s' := Serves last s a.1 a.2 s'

/-! ### The disk -/

/-- The record stands in front of the end of the directory. -/
def InUse (D : Bytes) (k : ℕ) : Prop := ∀ j ≤ k, entry D j 0 ≠ 0

instance (D : Bytes) (k : ℕ) : Decidable (InUse D k) := inferInstanceAs (Decidable (∀ j ≤ k, _))

/-- There are free blocks between the files. -/
def Gap (D : Bytes) (last blocks : ℕ) : Prop :=
  ∃ a < last + 1, 1 ≤ a ∧ a + blocks ≤ last ∧ ∀ k < 64, InUse D k → Live D k →
    fileEnd (entry D k) ≤ a ∨ a + blocks ≤ startingBlock (entry D k)

instance (D : Bytes) (last blocks : ℕ) : Decidable (Gap D last blocks) :=
  inferInstanceAs (Decidable (∃ a < last + 1, _))

/-- There are blocks between the end of a deleted file and the end of the disk. -/
def DeletedRoom (D : Bytes) (last blocks : ℕ) : Prop :=
  ∃ k < 64, InUse D k ∧ ¬ Live D k ∧ fileEnd (entry D k) + blocks ≤ last

instance (D : Bytes) (last blocks : ℕ) : Decidable (DeletedRoom D last blocks) :=
  inferInstanceAs (Decidable (∃ k < 64, _))

/-- `create` gets a name that fits, and is not led astray by deleted records. -/
structure SafeCreate (d : Disk) (filename : List UInt8) (maxsize : ℕ) : Prop where
  proper : Proper filename
  directory : (∃ k < 64, entry d.directory k 0 = 0) ∨ ∀ k < 64, Live d.directory k
  gap : Gap d.directory (d.disksize / 2 - 1) ((maxsize + 1) / 2) ∨
    ¬ DeletedRoom d.directory (d.disksize / 2 - 1) ((maxsize + 1) / 2)

/-- The numbers of the commands are values of type `int`, and so is the length of a local file. -/
def Safe (d : Disk) : Command → Prop
  | .create filename filesize =>
    1 ≤ filesize → filesize ≤ intMax ∧ SafeCreate d filename filesize.toNat
  | .createAsked filename filesize =>
    1 ≤ filesize % 2 ^ 32 → SafeCreate d filename (filesize % 2 ^ 32).toNat
  | .write _ (some data) => data.length < 2 ^ 31
  | _ => True

instance (filename : List UInt8) : Decidable (Proper filename) :=
  decidable_of_iff (filename ≠ [] ∧ filename.length < 32 ∧ 0 ∉ filename ∧ filename.head? ≠ some 1)
    ⟨fun h => ⟨h.1, h.2.1, h.2.2.1, h.2.2.2⟩, fun h => ⟨h.1, h.2, h.3, h.4⟩⟩

instance (d : Disk) (filename : List UInt8) (maxsize : ℕ) :
    Decidable (SafeCreate d filename maxsize) :=
  decidable_of_iff (Proper filename ∧
      ((∃ k < 64, entry d.directory k 0 = 0) ∨ ∀ k < 64, Live d.directory k) ∧
      (Gap d.directory (d.disksize / 2 - 1) ((maxsize + 1) / 2) ∨
        ¬ DeletedRoom d.directory (d.disksize / 2 - 1) ((maxsize + 1) / 2)))
    ⟨fun h => ⟨h.1, h.2.1, h.2.2⟩, fun h => ⟨h.1, h.2, h.3⟩⟩

instance (d : Disk) : (c : Command) → Decidable (Safe d c)
  | .create _ _ => inferInstanceAs (Decidable (_ → _ ∧ _))
  | .createAsked _ _ => inferInstanceAs (Decidable (_ → _))
  | .write _ (some data) => inferInstanceAs (Decidable (data.length < 2 ^ 31))
  | .write _ none | .list | .format _ | .read _ _ | .delete _ | .unknown => .isTrue trivial

/-- The disk after a command with this reply. -/
def answer (q : Qsort) (d : Disk) (a : Command × Reply) : Option Disk :=
  if (main q a.1 d).2 = a.2 then some (main q a.1 d).1 else none

/-- The disk after a format. -/
def diskSystem (q : Qsort) : System Disk (Command × Reply) :=
  ofStep (fun d => ∃ d₀, d = format d₀) (answer q)

def SafeStep (d : Disk) (a : Command × Reply) : Prop := Safe d a.1

instance (d : Disk) (a : Command × Reply) : Decidable (SafeStep d a) :=
  inferInstanceAs (Decidable (Safe d a.1))

/-- The disk holds the files of the store. -/
def Holds (last : ℕ) (d : Disk) (s : Files) : Prop := ∃ n, Catalog last d s n

section

variable {last n k slot a tint blocks maxsize : ℕ} {d : Disk} {s : Files} {D : Bytes}
  {filename data : List UInt8} {q : Qsort}

/-! ### An empty directory -/

theorem format_bytes (b : ℕ) : (format d).bytes b =
    if 4096 ≤ b ∧ b < 8192 then 0
    else if 1024 ≤ b ∧ b < 1536 then fsTag.getD (b - 1024) 0 else d.bytes b := rfl

theorem formatted_format : (format d).formatted := by
  have htag : (get 1024 512 (format d).bytes).takeWhile (· ≠ 0) = fsTag := by
    refine (takeWhile_get_iff (by decide)).mpr ⟨by decide, fun i hi => ?_, ?_⟩
    · have hi' : i < 4 := hi
      rw [format_bytes, if_neg (by omega), if_pos (by omega), Nat.add_sub_cancel_left]
      simp [List.getD_eq_getElem?_getD, hi]
    · rfl
  unfold Disk.formatted
  rw [htag]
  rfl

theorem size_of_blocks (hblocks : d.disksize / 2 = last + 1) (hpos : 1 ≤ last) :
    2 * blockSize ≤ d.size := by
  have hle : d.disksize ≤ d.size / 1048576 := Nat.mod_le _ _
  unfold blockSize
  omega

/-- The tag and the directory are those of a format. -/
theorem catalog_empty {d₀ : Disk} (hblocks : d.disksize / 2 = last + 1) (hpos : 1 ≤ last)
    (hsame : ∀ b, 1024 ≤ b ∧ b < 1536 ∨ 4096 ≤ b ∧ b < 8192 → d.bytes b = (format d₀).bytes b) :
    Catalog last d Store.empty 0 := by
  constructor
  · exact (formatted_congr fun b hlo hhi => hsame b (Or.inl ⟨hlo, hhi⟩)).mpr formatted_format
  · exact hblocks
  · exact hpos
  · refine ⟨Nat.zero_le _, fun k hk => absurd hk (Nat.not_lt_zero k), fun _ => ?_⟩
    exact hsame 4096 (by decide)
  · exact fun k hk => absurd hk (Nat.not_lt_zero k)
  · exact fun k hk => absurd hk (Nat.not_lt_zero k)
  · exact fun name f hf => by cases hf
  · exact fun k hk => absurd hk (Nat.not_lt_zero k)
  · exact fun k hk => absurd hk (Nat.not_lt_zero k)
  · exact Store.sound_empty

theorem catalog_format (hblocks : d.disksize / 2 = last + 1) (hpos : 1 ≤ last) :
    Catalog last (format d) Store.empty 0 := by
  have hsize : (format d).size = d.size := by
    have hle := size_of_blocks hblocks hpos
    simp only [format, Disk.flush]
    unfold blockSize at hle
    omega
  refine catalog_empty ?_ hpos fun _ _ => rfl
  rw [Disk.disksize, hsize]
  exact hblocks

/-! ### The search for blocks -/

theorem inUse_iff (h : Used D n) (hk : k < 64) : InUse D k ↔ k < n := by
  constructor
  · intro huse
    by_contra hge
    have hn := h.le
    exact huse n (by omega) (h.ends (by omega))
  · exact fun hk j hj => h.records j (by omega)

/-- The copy of the directory that is sorted. -/
def dirCopy (D : Bytes) (n : ℕ) : List Bytes := (List.range n).map (entry D)

theorem mem_dirCopy {e : Bytes} : e ∈ dirCopy D n ↔ ∃ k < n, entry D k = e := by
  simp [dirCopy]

theorem Catalog.start_lt (h : Catalog last d s n) {e : Bytes} (he : e ∈ dirCopy d.directory n) :
    startingBlock e < 2 ^ 31 := by
  obtain ⟨k, hk, rfl⟩ := mem_dirCopy.mp he
  have hend := (h.ends hk).2
  have hlast := h.last_lt
  unfold fileEnd at hend
  omega

/-- The areas of the files in the sorted copy. -/
def usedAreas (q : Qsort) (D : Bytes) (n : ℕ) : List (ℕ × ℕ) :=
  ((q.sort (dirCopy D n)).filter (· 0 ≠ 1)).map area

theorem mem_usedAreas {x : ℕ × ℕ} :
    x ∈ usedAreas q D n ↔ ∃ k < n, Live D k ∧ area (entry D k) = x := by
  simp only [usedAreas, List.mem_map, List.mem_filter, (q.perm _).mem_iff, mem_dirCopy,
    decide_eq_true_eq]
  constructor
  · rintro ⟨e, ⟨⟨k, hk, rfl⟩, hlive⟩, rfl⟩
    exact ⟨k, hk, hlive, rfl⟩
  · rintro ⟨k, hk, hlive, rfl⟩
    exact ⟨_, ⟨⟨k, hk, rfl⟩, hlive⟩, rfl⟩

theorem Catalog.ordered (h : Catalog last d s n) (q : Qsort) :
    Ordered last 1 (usedAreas q d.directory n) := by
  have hstart := fun e he => @Catalog.start_lt last n d s h e he
  refine ordered_of_sorted (sort_used q _ hstart) ?_ (fun x hx => ?_) h.pos
  · have hcopy : ((dirCopy d.directory n).filter (· 0 ≠ 1)).Pairwise
        fun e e' => Apart (area e) (area e') := by
      rw [dirCopy, List.filter_map, List.pairwise_map]
      have hnodup : (List.range n).Pairwise (· ≠ ·) := List.nodup_range
      apply (hnodup.filter _).imp_of_mem
      intro k j hk hj hne
      simp only [List.mem_filter, List.mem_range, Function.comp_apply, decide_eq_true_eq] at hk hj
      have hnames : fileName (entry d.directory k) ≠ fileName (entry d.directory j) :=
        fun heq => hne (h.distinct k hk.1 j hj.1 hk.2 hj.2 heq)
      exact h.sound.apart _ _ _ _ hnames (h.record k hk.1 hk.2) (h.record j hj.1 hj.2)
    rw [usedAreas, List.pairwise_map]
    exact (((q.perm _).filter _).pairwise_iff fun hxy => Or.symm hxy).mpr hcopy
  · obtain ⟨k, hk, hlive, rfl⟩ := mem_usedAreas.mp hx
    obtain ⟨hfirst, hend, hreserved, -⟩ := h.bounds hk hlive
    exact ⟨hfirst, hend, hreserved⟩

theorem Catalog.fits_iff (h : Catalog last d s n) :
    Fits (usedAreas q d.directory n) 1 last blocks a ↔ s.Free 1 last blocks a := by
  constructor
  · intro hf
    refine ⟨hf.lo, hf.hi, fun name f hname => ?_⟩
    obtain ⟨k, hk, hlive, rfl⟩ := h.named name f hname
    have hrecord := h.record k hk hlive
    rw [hname] at hrecord
    obtain rfl := Option.some.inj hrecord
    exact hf.free _ (mem_usedAreas.mpr ⟨k, hk, hlive, rfl⟩)
  · intro hf
    refine ⟨hf.first, hf.last, fun x hx => ?_⟩
    obtain ⟨k, hk, hlive, rfl⟩ := mem_usedAreas.mp hx
    exact hf.apart _ _ (h.record k hk hlive)

theorem Catalog.gap_iff (h : Catalog last d s n) :
    Gap d.directory last blocks ↔ ∃ a, s.Free 1 last blocks a := by
  have hn := h.used.le
  constructor
  · rintro ⟨a, -, hlo, hhi, hfree⟩
    refine ⟨a, hlo, hhi, fun name f hname => ?_⟩
    obtain ⟨k, hk, hlive, rfl⟩ := h.named name f hname
    have hrecord := h.record k hk hlive
    rw [hname] at hrecord
    obtain rfl := Option.some.inj hrecord
    exact hfree k (by omega) ((inUse_iff h.used (by omega)).mpr hk) hlive
  · rintro ⟨a, hfree⟩
    have hhi := hfree.last
    refine ⟨a, by omega, hfree.first, hhi, fun k hk huse hlive => ?_⟩
    exact hfree.apart _ _ (h.record k ((inUse_iff h.used hk).mp huse) hlive)

/-- The search finds the first gap; without a gap it goes on behind the deleted files. -/
theorem Catalog.search (h : Catalog last d s n) (q : Qsort) (requested : ℕ) :
    searchArea (d.disksize / 2) requested 1 (q.sort (dirCopy d.directory n)) =
      (firstFit last requested 1 (usedAreas q d.directory n)).getD
        (((((q.sort (dirCopy d.directory n)).filter (· 0 = 1)).map fileEnd).find?
          fun p => p + requested ≤ last).getD 0) := by
  have hstart := fun e he => @Catalog.start_lt last n d s h e he
  rw [h.blocks]
  refine searchArea_eq (sort_deleted_last q _ hstart) (h.ordered q) (fun e he _ => ?_) h.last_lt
  obtain ⟨k, hk, rfl⟩ := mem_dirCopy.mp ((q.perm _).mem_iff.mp he)
  exact (h.ends hk).2

/-! ### Counting the files -/

theorem Catalog.count_eq (h : Catalog last d s n) :
    s.count = ((Finset.range n).filter (Live d.directory ·)).card := by
  have himage : {name | s name ≠ none} = (fun k => fileName (entry d.directory k)) ''
      (((Finset.range n).filter (Live d.directory ·) : Finset ℕ) : Set ℕ) := by
    ext name
    simp only [Set.mem_ofPred_eq, Set.mem_image, Finset.coe_filter, Finset.mem_range]
    constructor
    · intro hname
      obtain ⟨f, hf⟩ := Option.ne_none_iff_exists'.mp hname
      obtain ⟨k, hk, hlive, hnamek⟩ := h.named name f hf
      exact ⟨k, ⟨hk, hlive⟩, hnamek⟩
    · rintro ⟨k, ⟨hk, hlive⟩, rfl⟩
      rw [h.record k hk hlive]
      exact Option.some_ne_none _
  have hinj : Set.InjOn (fun k => fileName (entry d.directory k))
      (((Finset.range n).filter (Live d.directory ·) : Finset ℕ) : Set ℕ) := by
    intro k hk j hj heq
    simp only [Finset.coe_filter, Finset.mem_range, Set.mem_ofPred_eq] at hk hj
    exact h.distinct k hk.1 j hj.1 hk.2 hj.2 heq
  rw [Store.count, himage, hinj.ncard_image, Set.ncard_coe_finset]

theorem Catalog.count_lt (h : Catalog last d s n) (hn : n < 64) : s.count < 64 := by
  rw [h.count_eq]
  calc ((Finset.range n).filter (Live d.directory ·)).card ≤ (Finset.range n).card :=
        Finset.card_filter_le _ _
    _ = n := Finset.card_range n
    _ < 64 := hn

theorem Catalog.count_full (h : Catalog last d s 64) (hlive : ∀ k < 64, Live d.directory k) :
    s.count = 64 := by
  rw [h.count_eq, Finset.filter_true_of_mem fun k hk => hlive k (Finset.mem_range.mp hk),
    Finset.card_range]

/-! ### The branches of `create` -/

theorem rounded (hmax : maxsize < 2 ^ 63) :
    (if maxsize % 2 ≠ 0 then (maxsize + 1) % 2 ^ 64 else maxsize) = 2 * ((maxsize + 1) / 2) := by
  split_ifs
  · omega
  · omega

theorem create_exists (hfind : findfile d.directory filename = some slot) :
    create q filename maxsize d = (d, .fileExists) := by
  simp [create, hfind]

theorem create_full (hfind : findfile d.directory filename = none)
    (hcount : countFrom d.directory 64 0 none = (0, none)) :
    create q filename maxsize d = (d, .noFreeEntries) := by
  simp [create, hfind, hcount]

/-- The first block of the new file, or 0. -/
def newFileStart (q : Qsort) (d : Disk) (n blocks : ℕ) : ℕ :=
  searchArea (d.disksize / 2) blocks 1 (q.sort (dirCopy d.directory n))

theorem create_search (hmax : maxsize < 2 ^ 63) (hfind : findfile d.directory filename = none)
    (hcount : countFrom d.directory 64 0 none = (n, some tint)) :
    create q filename maxsize d =
      if newFileStart q d n ((maxsize + 1) / 2) = 0 then
        (d, .cannotCreate (2 * ((maxsize + 1) / 2)))
      else (d.flush (withRecord n tint filename (newFileStart q d n ((maxsize + 1) / 2))
        ((maxsize + 1) / 2) d.directory), .complete) := by
  have hhalf : 2 * ((maxsize + 1) / 2) / 2 = (maxsize + 1) / 2 := by omega
  simp only [create, hfind, hcount, rounded hmax, hhalf]
  rfl

/-- The search of a safe `create` ends at the first gap. -/
theorem Catalog.newFileStart (h : Catalog last d s n)
    (hgap : Gap d.directory last blocks ∨ ¬ DeletedRoom d.directory last blocks) :
    newFileStart q d n blocks = 0 ∧ (∀ a, ¬ s.Free 1 last blocks a) ∨
      newFileStart q d n blocks ≠ 0 ∧
        IsLeast {a | s.Free 1 last blocks a} (newFileStart q d n blocks) := by
  have hn := h.used.le
  rw [BMFS.newFileStart, h.search q blocks]
  cases hfit : firstFit last blocks 1 (usedAreas q d.directory n) with
  | none =>
    have hnone : ∀ a, ¬ s.Free 1 last blocks a := fun a hfree =>
      firstFit_none (h.ordered q) hfit a (h.fits_iff.mpr hfree)
    have hroom : ¬ DeletedRoom d.directory last blocks := by
      refine hgap.resolve_left fun hgap' => ?_
      obtain ⟨a, hfree⟩ := h.gap_iff.mp hgap'
      exact hnone a hfree
    refine Or.inl ⟨?_, hnone⟩
    rw [Option.getD_none, List.find?_eq_none.mpr]
    · rfl
    · intro p hp hle
      obtain ⟨e, he, rfl⟩ := List.mem_map.mp hp
      rw [List.mem_filter, (q.perm _).mem_iff, mem_dirCopy, decide_eq_true_eq] at he
      obtain ⟨⟨k, hk, rfl⟩, hone⟩ := he
      exact hroom ⟨k, by omega, (inUse_iff h.used (by omega)).mpr hk, not_not.mpr hone,
        of_decide_eq_true hle⟩
  | some a =>
    obtain ⟨hfits, hleast⟩ := firstFit_some (h.ordered q) hfit
    have hlo := hfits.lo
    exact Or.inr ⟨Nat.ne_of_gt hlo, h.fits_iff.mp hfits, fun b hb => hleast (h.fits_iff.mpr hb)⟩

/-- A safe `create` answers as the store does. -/
theorem Catalog.creates (h : Catalog last d s n) (hsafe : SafeCreate d filename maxsize)
    (hpos : 1 ≤ maxsize) (hmax : maxsize < 2 ^ 63) :
    ∃ s', Creates last filename maxsize s (BMFS.create q filename maxsize d).2 s' ∧
      Holds last (BMFS.create q filename maxsize d).1 s' := by
  have hn := h.used.le
  cases hfind : findfile d.directory filename with
  | some slot =>
    rw [create_exists hfind]
    have hfile := (h.find hfind).2.2.2
    refine ⟨s, Creates.fileExists ?_, n, h⟩
    rw [hfile]
    exact Option.some_ne_none _
  | none =>
    have hnone := h.find_none hfind
    rcases Nat.lt_or_eq_of_le hn with hlt | rfl
    · obtain ⟨tint, hcount, hfree⟩ :=
        countFrom_spec h.used hlt (Nat.zero_add 64) (Nat.zero_le n) none
      have htint : tint < n ∧ ¬ Live d.directory tint ∨ tint = n ∧ n < 64 := by
        rcases hfree with hsome | ⟨-, hdead | heq⟩
        · cases hsome
        · exact Or.inl hdead
        · exact Or.inr ⟨heq, hlt⟩
      have hgap := hsafe.gap
      rw [h.blocks, Nat.add_sub_cancel] at hgap
      rw [create_search hmax hfind hcount]
      rcases h.newFileStart (q := q) hgap with ⟨hzero, hroom⟩ | ⟨hstart, hleast⟩
      · rw [if_pos hzero]
        exact ⟨s, Creates.noRoom hnone (h.count_lt hlt) hroom, n, h⟩
      · rw [if_neg hstart]
        exact ⟨_, Creates.created hnone (h.count_lt hlt) hleast, _,
          h.create hnone hsafe.proper htint hleast.1 (by omega)⟩
    · have hlive : ∀ k < 64, Live d.directory k := by
        refine hsafe.directory.resolve_left ?_
        rintro ⟨k, hk, hzero⟩
        exact h.used.records k hk hzero
      rw [create_full hfind (countFrom_full h.used hlive (Nat.zero_add 64))]
      exact ⟨s, Creates.full hnone (h.count_full hlive), 64, h⟩

/-! ### The other commands -/

theorem Catalog.lists (h : Catalog last d s n) : Lists (list d.directory) s := by
  have heq := listFrom_eq h.used (Nat.zero_add 64) (Nat.zero_le n)
  have hmem : ∀ k, k ∈ (List.range' 0 (n - 0)).filter (Live d.directory ·) ↔
      k < n ∧ Live d.directory k := by
    intro k
    simp
  constructor
  · rw [list, heq, List.map_map]
    refine List.Nodup.map_on (fun k hk j hj hname => ?_) (List.Nodup.filter _ List.nodup_range')
    rw [hmem] at hk hj
    exact h.distinct k hk.1 j hj.1 hk.2 hj.2 hname
  · intro name size mib
    rw [list, heq, List.mem_map]
    constructor
    · rintro ⟨k, hk, hline⟩
      rw [hmem] at hk
      have hend := (h.bounds hk.1 hk.2).2.1
      have hlast := h.last_lt
      simp only [line, Prod.mk.injEq] at hline
      obtain ⟨rfl, rfl, rfl⟩ := hline
      refine ⟨_, h.record k hk.1 hk.2, ?_, ?_⟩
      · rw [file_content, length_get]
      · unfold fileEnd at hend
        rw [file_reserved]
        omega
    · rintro ⟨f, hf, rfl, rfl⟩
      obtain ⟨k, hk, hlive, rfl⟩ := h.named name f hf
      have hrecord := h.record k hk hlive
      rw [hf] at hrecord
      obtain rfl := Option.some.inj hrecord
      have hend := (h.bounds hk hlive).2.1
      have hlast := h.last_lt
      unfold fileEnd at hend
      refine ⟨k, (hmem k).mpr ⟨hk, hlive⟩, ?_⟩
      rw [line, file_content, length_get, file_reserved]
      congr 2
      omega

theorem Catalog.reads (h : Catalog last d s n) (opens : Bool) :
    Serves last s (.read filename opens) (read filename opens d).2 s ∧
      (read filename opens d).1 = d := by
  cases hfind : findfile d.directory filename with
  | none =>
    simp only [BMFS.read, hfind]
    exact ⟨Serves.readMissing (h.find_none hfind), trivial⟩
  | some slot =>
    obtain ⟨hslot, hlive, hname, hfile⟩ := h.find hfind
    obtain ⟨-, hend, -, hsize⟩ := h.bounds hslot hlive
    have hdisk := h.size
    have hmod := (h.area_mod hslot hlive).1
    unfold fileEnd at hend
    cases opens with
    | false =>
      simp only [BMFS.read, hfind, hname, Bool.false_eq_true, if_false]
      exact ⟨Serves.readClosed hfile, trivial⟩
    | true =>
      have hcontent : ((List.range (fileSize (entry d.directory slot))).map fun tint =>
          if startingBlock (entry d.directory slot) * blockSize + tint < d.size then
            d.bytes (startingBlock (entry d.directory slot) * blockSize + tint)
          else 255) = (d.file (entry d.directory slot)).content := by
        apply List.map_congr_left
        intro i hi
        rw [List.mem_range] at hi
        rw [if_pos]
        unfold blockSize at *
        omega
      simp only [BMFS.read, hfind, hname, hmod, hcontent, if_true]
      exact ⟨Serves.read hfile, trivial⟩

theorem Catalog.writes (h : Catalog last d s n) (tfile : Option (List UInt8))
    (hlength : ∀ data ∈ tfile, data.length < 2 ^ 31) :
    ∃ s', Serves last s (.write filename tfile) (BMFS.write filename tfile d).2 s' ∧
      Holds last (BMFS.write filename tfile d).1 s' := by
  cases hfind : findfile d.directory filename with
  | none =>
    simp only [BMFS.write, hfind]
    exact ⟨s, Serves.writeMissing (h.find_none hfind), n, h⟩
  | some slot =>
    obtain ⟨hslot, hlive, hname, hfile⟩ := h.find hfind
    obtain ⟨hstart, hreserved⟩ := h.area_mod hslot hlive
    cases tfile with
    | none =>
      simp only [BMFS.write, hfind, hname]
      exact ⟨s, Serves.writeClosed hfile, n, h⟩
    | some data =>
      simp only [BMFS.write, hfind, hstart, hreserved]
      by_cases hroom : reservedBlocks (entry d.directory slot) * blockSize < data.length
      · rw [if_pos hroom]
        exact ⟨s, Serves.notEnoughSpace hfile hroom, n, h⟩
      · rw [if_neg hroom]
        exact ⟨_, Serves.write hfile (Nat.le_of_not_lt hroom), n,
          h.write hfind (hlength data rfl) (Nat.le_of_not_lt hroom)⟩

theorem Catalog.deletes (h : Catalog last d s n) :
    ∃ s', Serves last s (.delete filename) (BMFS.delete filename d).2 s' ∧
      Holds last (BMFS.delete filename d).1 s' := by
  cases hfind : findfile d.directory filename with
  | none =>
    simp only [BMFS.delete, hfind]
    exact ⟨s, Serves.deleteMissing (h.find_none hfind), n, h⟩
  | some slot =>
    simp only [BMFS.delete, hfind]
    exact ⟨_, Serves.delete (h.find hfind).2.2.2, n, h.delete hfind⟩

/-- Every run of the utility on a disk is a step of the store. -/
theorem main_serves (q : Qsort) (h : Holds last d s) {c : Command} (hsafe : Safe d c) :
    ∃ s', Serves last s c (main q c d).2 s' ∧ Holds last (main q c d).1 s' := by
  obtain ⟨n, h⟩ := h
  simp only [main, if_pos h.formatted]
  cases c with
  | list => exact ⟨s, Serves.list h.lists, n, h⟩
  | format force =>
    cases force with
    | false => exact ⟨s, Serves.aborted, n, h⟩
    | true => exact ⟨_, Serves.format, 0, catalog_format h.blocks h.pos⟩
  | create filename filesize =>
    by_cases hpos : 1 ≤ filesize
    · obtain ⟨hmax, hcreate⟩ := hsafe hpos
      unfold intMax at hmax
      obtain ⟨s', hs', hh⟩ := @Catalog.creates last n _ d s filename q h hcreate (by omega)
        (by omega)
      simp only [if_pos hpos]
      exact ⟨s', Serves.create hpos hs', hh⟩
    · simp only [if_neg hpos]
      exact ⟨s, Serves.invalid (by omega), n, h⟩
  | createAsked filename filesize =>
    have hpos_iff : 1 ≤ (filesize % 2 ^ 32).toNat ↔ 1 ≤ filesize % 2 ^ 32 := by omega
    simp only [hpos_iff]
    by_cases hpos : 1 ≤ filesize % 2 ^ 32
    · obtain ⟨s', hs', hh⟩ := @Catalog.creates last n _ d s filename q h (hsafe hpos) (by omega)
        (by omega)
      simp only [if_pos hpos]
      exact ⟨s', Serves.createAsked hpos hs', hh⟩
    · simp only [if_neg hpos]
      exact ⟨s, Serves.invalidAsked (by omega), n, h⟩
  | read filename opens =>
    obtain ⟨hr, hd⟩ := @Catalog.reads last n d s filename h opens
    refine ⟨s, hr, n, ?_⟩
    simp only [hd]
    exact h
  | write filename tfile =>
    refine h.writes tfile fun data hdata => ?_
    rw [Option.mem_def] at hdata
    subst hdata
    exact hsafe
  | delete filename => exact h.deletes
  | unknown => exact ⟨s, Serves.unknown, n, h⟩

theorem path_serves {q : Qsort} {d' : Disk} {as : List (Command × Reply)}
    (hpath : ((diskSystem q).restrict SafeStep).Path d as d') (h : Holds last d s) :
    ∃ s', (storeSystem last).Path s as s' ∧ Holds last d' s' := by
  refine hpath.simulates (fun d s a d' hh hstep => ?_) h
  obtain ⟨s', hserve, hh'⟩ := main_serves q hh hstep.1
  have hanswer := hstep.2
  simp only [diskSystem, ofStep, answer, Option.ite_none_right_eq_some, Option.some.injEq]
    at hanswer
  obtain ⟨hreply, rfl⟩ := hanswer
  rw [hreply] at hserve
  exact ⟨s', hserve, hh'⟩

/-- A disk of 12 MiB: four blocks for files. -/
def smallDisk : Disk := ⟨12582912, fun _ => 0⟩

/-- The file is written or removed. -/
def Changes (filename : List UInt8) : Command × Reply → Prop
  | (.format force, _) => force = true
  | (.write name _, r) => name = filename ∧ r = .complete
  | (.delete name, r) => name = filename ∧ r = .complete
  | _ => False

theorem Serves.keeps {s' : Files} {c : Command} {r : Reply} {f : File UInt8}
    (h : Serves last s c r s') (hf : s filename = some f) (hkeep : ¬ Changes filename (c, r)) :
    s' filename = some f := by
  have hcreate : ∀ {name maxsize}, Creates last name maxsize s r s' → s' filename = some f := by
    intro name maxsize hc
    cases hc with
    | fileExists => exact hf
    | full => exact hf
    | noRoom => exact hf
    | created hnone =>
      have hne : filename ≠ name := by
        rintro rfl
        rw [hf] at hnone
        cases hnone
      rw [Store.create, Function.update_of_ne hne]
      exact hf
  cases h with
  | list => exact hf
  | format => exact absurd rfl hkeep
  | aborted => exact hf
  | invalid => exact hf
  | create _ hc => exact hcreate hc
  | invalidAsked => exact hf
  | createAsked _ hc => exact hcreate hc
  | readMissing => exact hf
  | readClosed => exact hf
  | read => exact hf
  | writeMissing => exact hf
  | writeClosed => exact hf
  | notEnoughSpace => exact hf
  | write =>
    rw [Store.write, Function.update_of_ne fun heq => hkeep ⟨heq.symm, rfl⟩]
    exact hf
  | deleteMissing => exact hf
  | delete =>
    rw [Store.delete, Function.update_of_ne fun heq => hkeep ⟨heq.symm, rfl⟩]
    exact hf
  | unknown => exact hf

theorem path_keeps {s' : Files} {f : File UInt8} {as : List (Command × Reply)}
    (hpath : (storeSystem last).Path s as s') (hf : s filename = some f)
    (hkeep : ∀ a ∈ as, ¬ Changes filename a) : s' filename = some f := by
  induction hpath with
  | nil => exact hf
  | cons hstep _ ih =>
    exact ih (Serves.keeps hstep hf (hkeep _ List.mem_cons_self)) fun a ha =>
      hkeep a (List.mem_cons_of_mem _ ha)

/-- Without a gap the search ends behind a deleted file, if there is room. -/
theorem Catalog.newFileStart_deleted (h : Catalog last d s n)
    (hgap : ¬ Gap d.directory last blocks) (hroom : DeletedRoom d.directory last blocks) :
    1 ≤ BMFS.newFileStart q d n blocks ∧ BMFS.newFileStart q d n blocks + blocks ≤ last := by
  have hn := h.used.le
  rw [BMFS.newFileStart, h.search q blocks]
  cases hfit : firstFit last blocks 1 (usedAreas q d.directory n) with
  | none =>
    rw [Option.getD_none]
    cases hfind : (((q.sort (dirCopy d.directory n)).filter (· 0 = 1)).map fileEnd).find?
        fun p => p + blocks ≤ last with
    | none =>
      obtain ⟨k, hk, huse, hdead, hle⟩ := hroom
      rw [inUse_iff h.used hk] at huse
      have hnot := List.find?_eq_none.mp hfind (fileEnd (entry d.directory k))
        (List.mem_map_of_mem (by
          rw [List.mem_filter, (q.perm _).mem_iff, mem_dirCopy, decide_eq_true_eq]
          exact ⟨⟨k, huse, rfl⟩, not_not.mp hdead⟩))
      exact absurd (decide_eq_true hle) hnot
    | some p =>
      have hp := List.find?_some hfind
      obtain ⟨e, he, rfl⟩ := List.mem_map.mp (List.mem_of_find?_eq_some hfind)
      rw [List.mem_filter, (q.perm _).mem_iff, mem_dirCopy] at he
      obtain ⟨⟨k, hk, rfl⟩, -⟩ := he
      have hstart := (h.ends hk).1
      refine ⟨?_, of_decide_eq_true hp⟩
      rw [Option.getD_some, fileEnd]
      omega
  | some a =>
    obtain ⟨hfits, -⟩ := firstFit_some (h.ordered q) hfit
    exact absurd (h.gap_iff.mpr ⟨a, h.fits_iff.mp hfits⟩) hgap

/-- A file that is put where no gap is shares blocks with another one. -/
theorem Catalog.overlaps (h : Catalog last d s n) (hproper : Proper filename)
    (htint : tint < n ∧ ¬ Live d.directory tint ∨ tint = n ∧ n < 64) (ha : 1 ≤ a)
    (hend : a + blocks ≤ last) (hnot : ¬ s.Free 1 last blocks a) (s' : Files) :
    ¬ Holds last (d.flush (withRecord n tint filename a blocks d.directory)) s' := by
  rintro ⟨n', h'⟩
  have hn := h.used.le
  have hlast := h.last_lt
  set d' := d.flush (withRecord n tint filename a blocks d.directory) with hd'
  have hself : Same (entry d'.directory tint)
      (entry (addRecord tint filename a blocks d.directory) tint) :=
    entry_withRecord (by omega) (by omega)
  obtain ⟨-, hfile, hzero, hone⟩ :=
    @addRecord_fields a tint d' d.directory _ filename blocks hproper (by omega) (by omega) hself
  have hother : ∀ k < n, k ≠ tint → Same (entry d'.directory k) (entry d.directory k) := by
    intro k hk hne i hi
    rw [entry_withRecord (by omega) (by omega) i hi]
    exact entry_addRecord_of_ne hproper.short hne i hi
  have hused : ∀ k, k < n ∨ k = tint → k < n' := by
    intro k hk
    rw [← inUse_iff h'.used (by omega)]
    intro j hj
    by_cases hne : j = tint
    · rw [hne]
      exact hzero
    · rw [hother j (by omega) hne 0 (by decide)]
      exact h.used.records j (by omega)
  refine hnot ⟨ha, hend, fun name f hname => ?_⟩
  obtain ⟨k, hk, hlive, rfl⟩ := h.named name f hname
  have hrecord := h.record k hk hlive
  rw [hname] at hrecord
  obtain rfl := Option.some.inj hrecord
  have hne : k ≠ tint := by
    rintro rfl
    rcases htint with ⟨-, hdead⟩ | ⟨heq, -⟩
    · exact hdead hlive
    · omega
  have hsame := hother k hk hne
  have hlive' : Live d'.directory k := by
    unfold Live at *
    rwa [hsame 0 (by decide)]
  have hnames : fileName (entry d'.directory k) ≠ fileName (entry d'.directory tint) := fun heq =>
    hne (h'.distinct k (hused k (Or.inl hk)) tint (hused tint (Or.inr rfl)) hlive' hone heq)
  have hapart := h'.sound.apart _ _ _ _ hnames (h'.record k (hused k (Or.inl hk)) hlive')
    (h'.record tint (hused tint (Or.inr rfl)) hone)
  rw [hfile] at hapart
  simp only [Apart, File.area, file_start, file_reserved, hsame.startingBlock,
    hsame.reservedBlocks] at hapart
  exact hapart

/-- In a directory with an end, a new file is made if there is a gap, or room behind a deleted file.
If there is no gap, the new file shares blocks with another one. -/
theorem create_sound_iff (q : Qsort) (h : Holds last d s) (hproper : Proper filename)
    (hnew : s filename = none) (hend : ∃ k < 64, entry d.directory k 0 = 0) (hpos : 1 ≤ maxsize)
    (hmax : maxsize < 2 ^ 63) :
    ((create q filename maxsize d).2 = .complete ↔
      Gap d.directory last ((maxsize + 1) / 2) ∨ DeletedRoom d.directory last ((maxsize + 1) / 2)) ∧
    ((∃ s', Holds last (create q filename maxsize d).1 s') ↔
      Gap d.directory last ((maxsize + 1) / 2) ∨
        ¬ DeletedRoom d.directory last ((maxsize + 1) / 2)) := by
  obtain ⟨n, h⟩ := h
  have hn : n < 64 := by
    obtain ⟨k, hk, hzero⟩ := hend
    by_contra hge
    exact h.used.records k (by omega) hzero
  have hfind : findfile d.directory filename = none := by
    cases hfind : findfile d.directory filename with
    | none => rfl
    | some slot =>
      have hfile := (h.find hfind).2.2.2
      rw [hnew] at hfile
      cases hfile
  obtain ⟨tint, hcount, hfree⟩ :=
    countFrom_spec h.used hn (Nat.zero_add 64) (Nat.zero_le n) none
  have htint : tint < n ∧ ¬ Live d.directory tint ∨ tint = n ∧ n < 64 := by
    rcases hfree with hsome | ⟨-, hdead | heq⟩
    · cases hsome
    · exact Or.inl hdead
    · exact Or.inr ⟨heq, hn⟩
  rw [create_search hmax hfind hcount]
  by_cases hgap : Gap d.directory last ((maxsize + 1) / 2)
  · rcases h.newFileStart (q := q) (Or.inl hgap) with ⟨-, hroom⟩ | ⟨hstart, hleast⟩
    · obtain ⟨a, ha⟩ := h.gap_iff.mp hgap
      exact absurd ha (hroom a)
    · rw [if_neg hstart]
      exact ⟨iff_of_true rfl (Or.inl hgap), iff_of_true
        ⟨_, _, h.create hnew hproper htint hleast.1 (by omega)⟩ (Or.inl hgap)⟩
  · by_cases hroom : DeletedRoom d.directory last ((maxsize + 1) / 2)
    · obtain ⟨ha, hle⟩ := h.newFileStart_deleted (q := q) hgap hroom
      rw [if_neg (Nat.ne_of_gt ha)]
      refine ⟨iff_of_true rfl (Or.inr hroom), iff_of_false ?_ (by tauto)⟩
      rintro ⟨s', hs'⟩
      exact h.overlaps hproper htint ha hle (fun hf => hgap (h.gap_iff.mpr ⟨_, hf⟩)) s' hs'
    · rcases h.newFileStart (q := q) (Or.inr hroom) with ⟨hzero, -⟩ | ⟨-, hleast⟩
      · rw [if_pos hzero]
        exact ⟨iff_of_false (by simp) (by tauto), iff_of_true ⟨s, n, h⟩ (Or.inr hroom)⟩
      · exact absurd (h.gap_iff.mpr ⟨_, hleast.1⟩) hgap

/-- The first of two files is deleted, and a file that is too long for its blocks gets those of the
second one. -/
theorem create_sound_iff_overlap : ∃ d s, Holds 5 d s ∧
    (create insertionSort [67] 4 d).2 = .complete ∧
    ¬ ∃ s', Holds 5 (create insertionSort [67] 4 d).1 s' := by
  have hsome : (execute (guarded SafeStep (answer insertionSort)) (format smallDisk)
      [(.create [65] 2, .complete), (.create [66] 6, .complete), (.delete [65], .complete)]).map
        (fun d => (findfile d.directory [67], entry d.directory 2 0, decide (Gap d.directory 5 2),
          decide (DeletedRoom d.directory 5 2))) = some (none, 0, false, true) := by decide +kernel
  obtain ⟨d, hd, hcheck⟩ := Option.map_eq_some_iff.mp hsome
  obtain ⟨hfind, hcheck⟩ := Prod.mk.inj hcheck
  obtain ⟨hend, hcheck⟩ := Prod.mk.inj hcheck
  obtain ⟨hgap, hroom⟩ := Prod.mk.inj hcheck
  obtain ⟨s, -, n, hn⟩ := path_serves (path_restrict_of_execute _ hd)
    ⟨0, @catalog_format 5 smallDisk (by decide) (by decide)⟩
  obtain ⟨hmade, hsound⟩ := @create_sound_iff 5 4 d s [67] insertionSort ⟨n, hn⟩ (by decide)
    (hn.find_none hfind) ⟨2, by decide, hend⟩ (by decide) (by decide)
  refine ⟨d, s, ⟨n, hn⟩, hmade.mpr (Or.inr (of_decide_eq_true hroom)), fun hs => ?_⟩
  rcases hsound.mp hs with hyes | hno
  · exact of_decide_eq_false hgap hyes
  · exact hno (of_decide_eq_true hroom)

end

end GatOS.BMFS
