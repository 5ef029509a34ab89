import GatOS.BMFSDirectory
import GatOS.FileStore

/-!
# The disk as a store of files

The records of the directory and the blocks behind them hold a store of files: the operations of
the utility are those of the store.
-/
namespace GatOS.BMFS
open Octets MachineInt FirstFit FileStore

abbrev Files := Store (List UInt8) UInt8

/-- The file of a record. -/
def Disk.file (d : Disk) (e : Bytes) : File UInt8 where
  start := startingBlock e
  reserved := reservedBlocks e
  content := get (startingBlock e * blockSize) (fileSize e) d.bytes

/-- The first `n` records hold the files of the store. `last` is the last block. -/
structure Catalog (last : ℕ) (d : Disk) (s : Files) (n : ℕ) : Prop where
  formatted : d.formatted
  blocks : d.disksize / 2 = last + 1
  pos : 1 ≤ last
  used : Used d.directory n
  proper : ∀ k < n, Live d.directory k → Proper (fileName (entry d.directory k))
  record : ∀ k < n, Live d.directory k →
    s (fileName (entry d.directory k)) = some (d.file (entry d.directory k))
  named : ∀ name f, s name = some f →
    ∃ k < n, Live d.directory k ∧ fileName (entry d.directory k) = name
  distinct : ∀ k < n, ∀ j < n, Live d.directory k → Live d.directory j →
    fileName (entry d.directory k) = fileName (entry d.directory j) → k = j
  deleted : ∀ k < n, ¬ Live d.directory k →
    1 ≤ startingBlock (entry d.directory k) ∧ fileEnd (entry d.directory k) ≤ last
  sound : s.Sound blockSize 1 last

section

variable {last n k slot a tint : ℕ} {d : Disk} {s : Files} {D : Bytes} {e e' : Bytes}
  {filename l data : List UInt8} {f : File UInt8}

@[simp] theorem file_start : (d.file e).start = startingBlock e := rfl

@[simp] theorem file_reserved : (d.file e).reserved = reservedBlocks e := rfl

@[simp] theorem file_content :
    (d.file e).content = get (startingBlock e * blockSize) (fileSize e) d.bytes := rfl

/-! ### Sizes -/

theorem Catalog.last_lt (h : Catalog last d s n) : last < 2 ^ 31 := by
  have hblocks := h.blocks
  have hsize : d.disksize < 2 ^ 32 := Nat.mod_lt _ (by decide)
  omega

/-- The blocks lie on the disk. -/
theorem Catalog.size (h : Catalog last d s n) : (last + 1) * blockSize ≤ d.size := by
  have hblocks := h.blocks
  have hle : d.disksize ≤ d.size / 1048576 := Nat.mod_le _ _
  unfold blockSize
  omega

theorem Catalog.size_ge (h : Catalog last d s n) : 2 * blockSize ≤ d.size := by
  have hsize := h.size
  have hpos := h.pos
  calc 2 * blockSize ≤ (last + 1) * blockSize := Nat.mul_le_mul_right _ (by omega)
    _ ≤ d.size := hsize

/-- The file of a live record and its place on the disk. -/
theorem Catalog.bounds (h : Catalog last d s n) (hk : k < n) (hlive : Live d.directory k) :
    1 ≤ startingBlock (entry d.directory k) ∧ fileEnd (entry d.directory k) ≤ last ∧
      0 < reservedBlocks (entry d.directory k) ∧
      fileSize (entry d.directory k) ≤ reservedBlocks (entry d.directory k) * blockSize := by
  have hrecord := h.record k hk hlive
  have hfirst := h.sound.first _ _ hrecord
  have hlast := h.sound.last _ _ hrecord
  have hreserved := h.sound.reserved _ _ hrecord
  have hcontent := h.sound.content _ _ hrecord
  rw [file_start] at hfirst hlast
  rw [file_reserved] at hlast hreserved hcontent
  rw [file_content, length_get] at hcontent
  exact ⟨hfirst, hlast, hreserved, hcontent⟩

theorem Catalog.ends (h : Catalog last d s n) (hk : k < n) :
    1 ≤ startingBlock (entry d.directory k) ∧ fileEnd (entry d.directory k) ≤ last := by
  by_cases hlive : Live d.directory k
  · obtain ⟨hstart, hend, -, -⟩ := h.bounds hk hlive
    exact ⟨hstart, hend⟩
  · exact h.deleted k hk hlive

theorem mod_blockSize (hlast : last < 2 ^ 31) (ha : a ≤ last) :
    a * blockSize % 2 ^ 64 = a * blockSize := by
  apply Nat.mod_eq_of_lt
  unfold blockSize
  omega

/-- The utility computes the place and the room of a file without an overflow. -/
theorem Catalog.area_mod (h : Catalog last d s n) (hk : k < n) (hlive : Live d.directory k) :
    startingBlock (entry d.directory k) * blockSize % 2 ^ 64 =
        startingBlock (entry d.directory k) * blockSize ∧
      reservedBlocks (entry d.directory k) * blockSize % 2 ^ 64 =
        reservedBlocks (entry d.directory k) * blockSize := by
  have hend := (h.bounds hk hlive).2.1
  unfold fileEnd at hend
  exact ⟨mod_blockSize h.last_lt (by omega), mod_blockSize h.last_lt (by omega)⟩

/-! ### Files that are found -/

theorem Catalog.find (h : Catalog last d s n)
    (hfind : findfile d.directory filename = some slot) :
    slot < n ∧ Live d.directory slot ∧ fileName (entry d.directory slot) = filename ∧
      s filename = some (d.file (entry d.directory slot)) := by
  obtain ⟨hslot, hlive, hname⟩ :=
    (@findfileFrom_spec _ filename 64 n 0 h.used rfl (Nat.zero_le _)).1 slot hfind
  exact ⟨hslot, hlive, hname, hname ▸ h.record slot hslot hlive⟩

theorem Catalog.find_none (h : Catalog last d s n)
    (hfind : findfile d.directory filename = none) : s filename = none := by
  have hspec := (@findfileFrom_spec _ filename 64 n 0 h.used rfl (Nat.zero_le _)).2 hfind
  by_contra hsome
  obtain ⟨f, hf⟩ := Option.ne_none_iff_exists'.mp hsome
  obtain ⟨k, hk, hlive, hname⟩ := h.named _ _ hf
  exact hspec k (Nat.zero_le k) hk hlive hname

/-! ### The directory goes to the disk -/

theorem entry_flush (hk : k < 64) : Same (entry (d.flush D).directory k) (entry D k) := by
  intro i hi
  simp only [entry, Disk.directory, Disk.flush]
  rw [if_pos (by omega), Nat.add_sub_cancel_left]

theorem flush_bytes {b : ℕ} (hb : b < 4096 ∨ 8192 ≤ b) : (d.flush D).bytes b = d.bytes b := by
  simp only [Disk.flush]
  rw [if_neg (by omega)]

theorem formatted_congr {d' : Disk} (h : ∀ b, 1024 ≤ b → b < 1536 → d'.bytes b = d.bytes b) :
    d'.formatted ↔ d.formatted := by
  have hget : get 1024 512 d'.bytes = get 1024 512 d.bytes :=
    get_congr fun i hi => h _ (by omega) (by omega)
  unfold Disk.formatted
  rw [hget]

theorem flush_size (h : 2 * blockSize ≤ d.size) : (d.flush D).size = d.size := by
  simp only [Disk.flush]
  unfold blockSize at h
  omega

/-- The contents of the other files stay. -/
theorem file_congr {d' : Disk} (hsame : Same e e')
    (hbytes : ∀ i < fileSize e', d'.bytes (startingBlock e' * blockSize + i) =
      d.bytes (startingBlock e' * blockSize + i)) : d'.file e = d.file e' := by
  unfold Disk.file
  rw [hsame.startingBlock, hsame.reservedBlocks, hsame.fileSize, get_congr hbytes]

/-! ### One record changes -/

/-- The record at `slot` is written, perhaps behind the others, and the file under `name` becomes
what it says. -/
structure Rewrites (last : ℕ) (d d' : Disk) (n n' slot : ℕ) (name : List UInt8)
    (v : Option (File UInt8)) : Prop where
  le : n' ≤ 64
  inside : slot < n'
  grows : ∀ k, k ≠ slot → (k < n' ↔ k < n)
  size : d'.size = d.size
  tag : ∀ b, 1024 ≤ b → b < 1536 → d'.bytes b = d.bytes b
  other : ∀ k < n', k ≠ slot → Same (entry d'.directory k) (entry d.directory k)
  ends : n' < 64 → entry d'.directory n' 0 = 0
  self : entry d'.directory slot 0 ≠ 0
  contents : ∀ k < n, k ≠ slot → Live d.directory k →
    d'.file (entry d.directory k) = d.file (entry d.directory k)
  old : ∀ k < n, Live d.directory k → (fileName (entry d.directory k) = name ↔ k = slot)
  live : Live d'.directory slot → Proper name ∧ fileName (entry d'.directory slot) = name ∧
    v = some (d'.file (entry d'.directory slot))
  dead : ¬ Live d'.directory slot → v = none ∧ 1 ≤ startingBlock (entry d'.directory slot) ∧
    fileEnd (entry d'.directory slot) ≤ last

theorem Catalog.rewrites {d' : Disk} {n' : ℕ} {name : List UInt8} {v : Option (File UInt8)}
    (h : Catalog last d s n) (hr : Rewrites last d d' n n' slot name v)
    (hsound : Store.Sound blockSize 1 last (Function.update s name v)) :
    Catalog last d' (Function.update s name v) n' := by
  have hold : ∀ {k}, k < n' → k ≠ slot → Live d'.directory k → k < n ∧ Live d.directory k ∧
      fileName (entry d'.directory k) = fileName (entry d.directory k) ∧
      fileName (entry d.directory k) ≠ name := by
    intro k hk hne hlive
    have hsame := hr.other k hk hne
    have hkn := (hr.grows k hne).mp hk
    have hlive' : Live d.directory k := by
      unfold Live at *
      rwa [← hsame 0 (by decide)]
    exact ⟨hkn, hlive', hsame.fileName, fun heq => hne ((hr.old k hkn hlive').mp heq)⟩
  constructor
  · exact (formatted_congr hr.tag).mpr h.formatted
  · rw [Disk.disksize, hr.size]
    exact h.blocks
  · exact h.pos
  · refine ⟨hr.le, fun k hk => ?_, hr.ends⟩
    by_cases hne : k = slot
    · rw [hne]
      exact hr.self
    · rw [hr.other k hk hne 0 (by decide)]
      exact h.used.records k ((hr.grows k hne).mp hk)
  · intro k hk hlive
    by_cases hne : k = slot
    · subst hne
      obtain ⟨hproper, hname, -⟩ := hr.live hlive
      rwa [hname]
    · obtain ⟨hkn, hlive', hname, -⟩ := hold hk hne hlive
      rw [hname]
      exact h.proper k hkn hlive'
  · intro k hk hlive
    by_cases hne : k = slot
    · subst hne
      obtain ⟨-, hname, hv⟩ := hr.live hlive
      rw [hname, Function.update_self, hv]
    · obtain ⟨hkn, hlive', hname, hnot⟩ := hold hk hne hlive
      have hsame := hr.other k hk hne
      have hfile : d'.file (entry d'.directory k) = d'.file (entry d.directory k) :=
        file_congr hsame fun _ _ => rfl
      rw [hname, Function.update_of_ne hnot, hfile, hr.contents k hkn hne hlive']
      exact h.record k hkn hlive'
  · intro name' f hf
    by_cases hname' : name' = name
    · rw [hname', Function.update_self] at hf
      have hlive : Live d'.directory slot := by
        by_contra hdead
        rw [(hr.dead hdead).1] at hf
        cases hf
      exact ⟨slot, hr.inside, hlive, hname' ▸ (hr.live hlive).2.1⟩
    · rw [Function.update_of_ne hname'] at hf
      obtain ⟨k, hk, hlive, hnamek⟩ := h.named name' f hf
      have hne : k ≠ slot := by
        intro heq
        exact hname' (hnamek.symm.trans ((hr.old k hk hlive).mpr heq))
      have hk' := (hr.grows k hne).mpr hk
      have hsame := hr.other k hk' hne
      refine ⟨k, hk', ?_, by rw [hsame.fileName, hnamek]⟩
      unfold Live at *
      rwa [hsame 0 (by decide)]
  · intro k hk j hj hlivek hlivej heq
    by_cases hnek : k = slot
    · by_cases hnej : j = slot
      · rw [hnek, hnej]
      · obtain ⟨-, -, hname, hnot⟩ := hold hj hnej hlivej
        rw [hnek] at heq hlivek
        exact absurd (hname.symm.trans (heq.symm.trans (hr.live hlivek).2.1)) hnot
    · obtain ⟨hkn, hlivek', hnamek, hnotk⟩ := hold hk hnek hlivek
      by_cases hnej : j = slot
      · rw [hnej] at heq hlivej
        exact absurd (hnamek.symm.trans (heq.trans (hr.live hlivej).2.1)) hnotk
      · obtain ⟨hjn, hlivej', hnamej, -⟩ := hold hj hnej hlivej
        rw [hnamek, hnamej] at heq
        exact h.distinct k hkn j hjn hlivek' hlivej' heq
  · intro k hk hdead
    by_cases hne : k = slot
    · rw [hne] at hdead ⊢
      exact (hr.dead hdead).2
    · have hsame := hr.other k hk hne
      rw [fileEnd, hsame.startingBlock, hsame.reservedBlocks]
      exact h.ends ((hr.grows k hne).mp hk)
  · exact hsound

/-! ### Deleting and writing -/

/-- The names of the other records. -/
theorem Catalog.old (h : Catalog last d s n) (hfind : findfile d.directory filename = some slot)
    (hk : k < n) (hlive : Live d.directory k) :
    fileName (entry d.directory k) = filename ↔ k = slot := by
  obtain ⟨hslot, hlive', hname, -⟩ := h.find hfind
  constructor
  · intro heq
    exact h.distinct k hk slot hslot hlive hlive' (heq.trans hname.symm)
  · rintro rfl
    exact hname

/-- The flushed directory with some bytes of one record written. -/
theorem entry_flush_put (hk : k < 64) (hl : a + l.length ≤ 64) (hne : k ≠ slot) :
    Same (entry (d.flush (put (64 * slot + a) l D)).directory k) (entry D k) := by
  intro i hi
  rw [entry_flush hk i hi]
  exact entry_put_of_ne hne hl i hi

theorem entry_flush_put_self (hslot : slot < 64) :
    Same (entry (d.flush (put (64 * slot + a) l D)).directory slot) (put a l (entry D slot)) := by
  intro i hi
  rw [entry_flush hslot i hi, entry_put]

/-- A file in front of the end of the directory. -/
theorem Catalog.end_flush_put (h : Catalog last d s n) {d' : Disk} (hslot : slot < n)
    (hl : a + l.length ≤ 64) (hn : n < 64) :
    entry (d'.flush (put (64 * slot + a) l d.directory)).directory n 0 = 0 := by
  rw [entry_flush_put hn hl (by omega) 0 (by decide)]
  exact h.used.ends hn

/-- The directory does not lie in the blocks of the files. -/
theorem file_flush (hstart : 1 ≤ startingBlock e) : (d.flush D).file e = d.file e := by
  refine file_congr (fun _ _ => rfl) fun i _ => flush_bytes (Or.inr ?_)
  unfold blockSize
  omega

theorem Catalog.delete (h : Catalog last d s n)
    (hfind : findfile d.directory filename = some slot) :
    Catalog last (d.flush (put (64 * slot) [1] d.directory)) (s.delete filename) n := by
  obtain ⟨hslot, hlive, hname, hfile⟩ := h.find hfind
  have hn := h.used.le
  have hself : Same (entry (d.flush (put (64 * slot) [1] d.directory)).directory slot)
      (put 0 [1] (entry d.directory slot)) :=
    @entry_flush_put_self slot 0 d d.directory [1] (by omega)
  have hdead : ¬ Live (d.flush (put (64 * slot) [1] d.directory)).directory slot := by
    unfold Live
    rw [hself 0 (by decide)]
    simp [put]
  have hkeep : ∀ b m, 1 ≤ b → get b m (put 0 [1] (entry d.directory slot)) =
      get b m (entry d.directory slot) := fun b m hb => get_put_apart (Or.inr hb)
  have hr : Rewrites last d (d.flush (put (64 * slot) [1] d.directory)) n n slot filename none := by
    constructor
    · exact hn
    · exact hslot
    · exact fun k _ => Iff.rfl
    · exact flush_size h.size_ge
    · exact fun b hlo hhi => flush_bytes (Or.inl (by omega))
    · exact fun k hk hne => @entry_flush_put k slot 0 d d.directory [1] (by omega) (by simp) hne
    · exact fun hlt => @Catalog.end_flush_put last n slot 0 d s [1] h d hslot (by simp) hlt
    · rw [hself 0 (by decide)]
      simp [put]
    · exact fun k hk _ hlivek => file_flush (h.bounds hk hlivek).1
    · exact fun k hk hlivek => h.old hfind hk hlivek
    · exact fun hlive' => absurd hlive' hdead
    · refine fun _ => ⟨rfl, ?_⟩
      rw [fileEnd, Same.startingBlock hself, Same.reservedBlocks hself, startingBlock,
        reservedBlocks, hkeep _ _ (by decide), hkeep _ _ (by decide)]
      exact h.ends hslot
  exact h.rewrites hr h.sound.delete

/-- The contents of two files lie apart. -/
theorem Catalog.contents_apart (h : Catalog last d s n) {j : ℕ} (hk : k < n)
    (hlivek : Live d.directory k) (hj : j < n) (hlivej : Live d.directory j) (hne : k ≠ j)
    {i : ℕ} (hi : i < fileSize (entry d.directory k))
    (hroom : data.length ≤ reservedBlocks (entry d.directory j) * blockSize) :
    startingBlock (entry d.directory k) * blockSize + i <
        startingBlock (entry d.directory j) * blockSize ∨
      startingBlock (entry d.directory j) * blockSize + data.length ≤
        startingBlock (entry d.directory k) * blockSize + i := by
  have hnames : fileName (entry d.directory k) ≠ fileName (entry d.directory j) :=
    fun heq => hne (h.distinct k hk j hj hlivek hlivej heq)
  have hapart := h.sound.apart _ _ _ _ hnames (h.record k hk hlivek) (h.record j hj hlivej)
  have hsize := (h.bounds hk hlivek).2.2.2
  simp only [Apart, File.area, file_start, file_reserved] at hapart
  unfold blockSize at *
  omega

theorem Catalog.write (h : Catalog last d s n) (hfind : findfile d.directory filename = some slot)
    (hlength : data.length < 2 ^ 31)
    (hroom : data.length ≤ reservedBlocks (entry d.directory slot) * blockSize) :
    Catalog last ((d.store (startingBlock (entry d.directory slot) * blockSize) data).flush
      (put (64 * slot + 48) (toOctets 8 data.length) d.directory)) (s.write filename data) n := by
  obtain ⟨hslot, hlive, hname, hfile⟩ := h.find hfind
  have hn := h.used.le
  obtain ⟨hstart, hend, -, -⟩ := h.bounds hslot hlive
  set e := entry d.directory slot with he
  set D := put (64 * slot + 48) (toOctets 8 data.length) d.directory with hD
  set d₁ := d.store (startingBlock e * blockSize) data with hd₁
  have hbehind : 8192 ≤ startingBlock e * blockSize := by
    unfold blockSize
    omega
  have hsize₁ : d₁.size = d.size := by
    have hsize := h.size
    have hle : startingBlock e * blockSize + data.length ≤ d.size := by
      unfold fileEnd at hend
      unfold blockSize at *
      omega
    simp only [hd₁, Disk.store]
    split_ifs
    · rfl
    · exact Nat.max_eq_left hle
  have hself : Same (entry (d₁.flush D).directory slot)
      (put 48 (toOctets 8 data.length) e) :=
    @entry_flush_put_self slot 48 d₁ d.directory (toOctets 8 data.length) (by omega)
  have hzero : entry (d₁.flush D).directory slot 0 = e 0 := by
    rw [hself 0 (by decide)]
    exact put_outside (Or.inl (by decide))
  have hname' : fileName (entry (d₁.flush D).directory slot) = filename := by
    rw [hself.fileName, fileName_put (h.proper slot hslot hlive).short (by decide), hname]
  have hfile' : (d₁.flush D).file (entry (d₁.flush D).directory slot) =
      { d.file e with content := data } := by
    have hkeep : ∀ b m, b + m ≤ 48 → get b m (put 48 (toOctets 8 data.length) e) = get b m e :=
      fun b m hb => get_put_apart (Or.inl hb)
    have hlen : fileSize (put 48 (toOctets 8 data.length) e) = data.length := by
      have hget := get_put 48 (toOctets 8 data.length) e
      rw [length_toOctets] at hget
      rw [fileSize, hget, ofOctets_toOctets]
      exact Nat.mod_eq_of_lt (by omega)
    have hstart' : startingBlock (put 48 (toOctets 8 data.length) e) = startingBlock e := by
      rw [startingBlock, hkeep _ _ (by decide), startingBlock]
    have hreserved' : reservedBlocks (put 48 (toOctets 8 data.length) e) = reservedBlocks e := by
      rw [reservedBlocks, hkeep _ _ (by decide), reservedBlocks]
    have hcontent : get (startingBlock e * blockSize) data.length (d₁.flush D).bytes = data := by
      have hflush : ∀ i < data.length, (d₁.flush D).bytes (startingBlock e * blockSize + i) =
          d₁.bytes (startingBlock e * blockSize + i) := fun i _ => flush_bytes (Or.inr (by omega))
      rw [get_congr hflush]
      exact get_put _ _ _
    unfold Disk.file
    rw [hself.startingBlock, hself.reservedBlocks, hself.fileSize, hlen, hstart', hreserved',
      hcontent]
  have hr : Rewrites last d (d₁.flush D) n n slot filename
      ((s filename).map fun f => { f with content := data }) := by
    constructor
    · exact hn
    · exact hslot
    · exact fun k _ => Iff.rfl
    · rw [flush_size (hsize₁ ▸ h.size_ge), hsize₁]
    · intro b hlo hhi
      rw [flush_bytes (Or.inl (by omega))]
      exact put_outside (Or.inl (by omega))
    · exact fun k hk hne => entry_flush_put (by omega) (by simp) hne
    · exact fun hlt => h.end_flush_put hslot (by simp) hlt
    · rw [hzero]
      exact h.used.records slot hslot
    · intro k hk hne hlivek
      rw [file_flush (h.bounds hk hlivek).1]
      exact file_congr (fun _ _ => rfl) fun i hi =>
        put_outside (h.contents_apart hk hlivek hslot hlive hne hi hroom)
    · exact fun k hk hlivek => h.old hfind hk hlivek
    · intro _
      refine ⟨hname ▸ h.proper slot hslot hlive, hname', ?_⟩
      rw [hfile', hfile]
      rfl
    · intro hdead
      refine absurd ?_ hdead
      unfold Live
      rw [hzero]
      exact hlive
  exact h.rewrites hr (h.sound.write hfile hroom)

/-! ### Creating -/

section

variable {blocks : ℕ}

theorem entry_addRecord : entry (addRecord tint filename a blocks D) tint =
    put 0 (filename ++ [0]) (put 48 (toOctets 8 0) (put 40 (toOctets 8 blocks)
      (put 32 (toOctets 8 a) (entry D tint)))) := by
  have hname : ∀ m, entry (put (64 * tint) (filename ++ [0]) m) tint =
      put 0 (filename ++ [0]) (entry m tint) := fun m => @entry_put m _ tint 0
  rw [addRecord, hname, entry_put, entry_put, entry_put]

theorem entry_addRecord_of_ne (hshort : filename.length < 32) (hne : k ≠ tint) :
    Same (entry (addRecord tint filename a blocks D) k) (entry D k) := by
  intro i hi
  have hname : ∀ m, Same (entry (put (64 * tint) (filename ++ [0]) m) k) (entry m k) :=
    fun m => @entry_put_of_ne m _ tint k 0 hne (by simp; omega)
  rw [addRecord, hname _ i hi, entry_put_of_ne hne (by simp) i hi,
    entry_put_of_ne hne (by simp) i hi, entry_put_of_ne hne (by simp) i hi]

/-- The fields of a new record. -/
theorem addRecord_fields (hproper : Proper filename) (ha : a < 2 ^ 64) (hblocks : blocks < 2 ^ 64)
    (he : Same e (entry (addRecord tint filename a blocks D) tint)) :
    fileName e = filename ∧ d.file e = ⟨a, blocks, []⟩ ∧ e 0 ≠ 0 ∧ e 0 ≠ 1 := by
  have hshort := hproper.short
  rw [entry_addRecord] at he
  have hname : ∀ b m g, 32 ≤ b → get b m (put 0 (filename ++ [0]) g) = get b m g :=
    fun b m g hb => get_put_apart (Or.inr (by simp; omega))
  have hfield : ∀ b v g, v < 2 ^ 64 → ofOctets (get b 8 (put b (toOctets 8 v) g)) = v := by
    intro b v g hv
    have hget := get_put b (toOctets 8 v) g
    rw [length_toOctets] at hget
    rw [hget, ofOctets_toOctets]
    exact Nat.mod_eq_of_lt (by omega)
  have hother : ∀ b c v g, b + 8 ≤ c → get b 8 (put c (toOctets 8 v) g) = get b 8 g :=
    fun b c v g hb => get_put_apart (Or.inl hb)
  have hstart : startingBlock e = a := by
    rw [he.startingBlock, startingBlock, hname _ _ _ (by decide), hother _ _ _ _ (by decide),
      hother _ _ _ _ (by decide), hfield _ _ _ ha]
  have hreserved : reservedBlocks e = blocks := by
    rw [he.reservedBlocks, reservedBlocks, hname _ _ _ (by decide), hother _ _ _ _ (by decide),
      hfield _ _ _ hblocks]
  have hsize : fileSize e = 0 := by
    rw [he.fileSize, fileSize, hname _ _ _ (by decide), hfield _ _ _ (by decide)]
  refine ⟨by rw [he.fileName, fileName_put_name hproper], ?_, ?_⟩
  · unfold Disk.file
    rw [hstart, hreserved, hsize]
    rfl
  · rw [he 0 (by decide)]
    exact put_name_zero hproper

/-- The directory with the new record, and with the end behind it. -/
def withRecord (n tint : ℕ) (filename : List UInt8) (a blocks : ℕ) (D : Bytes) : Bytes :=
  let directory := addRecord tint filename a blocks D
  if tint = n ∧ n + 1 < 64 then put (64 * (n + 1)) [0] directory else directory

theorem entry_withRecord (hk : k < 64) (hne : tint = n → k ≠ n + 1) :
    Same (entry (d.flush (withRecord n tint filename a blocks D)).directory k)
      (entry (addRecord tint filename a blocks D) k) := by
  intro i hi
  rw [entry_flush hk i hi, withRecord]
  split_ifs with hlast
  · exact @entry_put_of_ne _ [0] (n + 1) k 0 (hne hlast.1) (by simp) i hi
  · rfl

theorem entry_withRecord_end (hn : n + 1 < 64) :
    entry (d.flush (withRecord n n filename a blocks D)).directory (n + 1) 0 = 0 := by
  rw [entry_flush hn 0 (by decide), withRecord]
  have hput : entry (put (64 * (n + 1)) [0] (addRecord n filename a blocks D)) (n + 1) =
      put 0 [0] (entry (addRecord n filename a blocks D) (n + 1)) := @entry_put _ [0] (n + 1) 0
  rw [if_pos ⟨rfl, hn⟩, hput]
  simp [put]

theorem Catalog.create (h : Catalog last d s n) (hnone : s filename = none)
    (hproper : Proper filename) (htint : tint < n ∧ ¬ Live d.directory tint ∨ tint = n ∧ n < 64)
    (hfree : s.Free 1 last blocks a) (hblocks : 0 < blocks) :
    Catalog last (d.flush (withRecord n tint filename a blocks d.directory))
      (s.create filename a blocks) (if tint = n then n + 1 else n) := by
  have hn := h.used.le
  have hlast := h.last_lt
  have hfirst := hfree.first
  have hend := hfree.last
  set d' := d.flush (withRecord n tint filename a blocks d.directory) with hd'
  have hself : Same (entry d'.directory tint)
      (entry (addRecord tint filename a blocks d.directory) tint) :=
    entry_withRecord (by omega) (by omega)
  obtain ⟨hname, hfile, hzero, hone⟩ :=
    @addRecord_fields a tint d' d.directory _ filename blocks hproper (by omega) (by omega) hself
  have hnot : ∀ j < n, Live d.directory j → fileName (entry d.directory j) ≠ filename := by
    intro j hj hlivej heq
    have hsome := h.record j hj hlivej
    rw [heq, hnone] at hsome
    cases hsome
  have hr : Rewrites last d d' n (if tint = n then n + 1 else n) tint filename
      (some ⟨a, blocks, []⟩) := by
    constructor
    · split_ifs
      · omega
      · exact hn
    · split_ifs
      · omega
      · omega
    · intro k hne
      split_ifs
      · omega
      · rfl
    · exact flush_size h.size_ge
    · exact fun b hlo hhi => flush_bytes (Or.inl (by omega))
    · intro k hk hne i hi
      have hk64 : k < 64 := by
        split_ifs at hk
        · omega
        · omega
      have hbehind : tint = n → k ≠ n + 1 := by
        intro htn
        rw [if_pos htn] at hk
        omega
      rw [entry_withRecord hk64 hbehind i hi]
      exact entry_addRecord_of_ne hproper.short hne i hi
    · intro hlt
      by_cases htn : tint = n
      · rw [if_pos htn] at hlt ⊢
        subst htn
        exact entry_withRecord_end hlt
      · rw [if_neg htn] at hlt ⊢
        rw [entry_withRecord hlt (fun htn' => absurd htn' htn) 0 (by decide),
          entry_addRecord_of_ne hproper.short (Ne.symm htn) 0 (by decide)]
        exact h.used.ends hlt
    · exact hzero
    · exact fun k hk _ hlivek => file_flush (h.bounds hk hlivek).1
    · intro k hk hlivek
      refine ⟨fun heq => absurd heq (hnot k hk hlivek), fun hkt => ?_⟩
      rcases htint with ⟨-, hdead⟩ | ⟨htn, -⟩
      · exact absurd (hkt ▸ hlivek) hdead
      · omega
    · intro _
      exact ⟨hproper, hname, by rw [hfile]⟩
    · intro hdead
      exact absurd hone hdead
  exact h.rewrites hr (h.sound.create hfree hblocks)

end

end

end GatOS.BMFS
