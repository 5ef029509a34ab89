import Mathlib.Data.List.Sort
import GatOS.BMFS
import GatOS.FirstFit

/-!
# The records of the directory

What the loops over the 64 records find, and what becomes of the records when some of their bytes
are written.
-/
namespace GatOS.BMFS
open Octets MachineInt FirstFit

section

variable {D : Bytes} {e e' : Bytes} {l filename : List UInt8} {i j k m n a tint : ℕ}

/-! ### The bytes of a record -/

/-- The two records have the same 64 bytes. -/
def Same (e e' : Bytes) : Prop := ∀ i < 64, e i = e' i

theorem Same.get (h : Same e e') (hn : a + n ≤ 64) : get a n e = get a n e' :=
  get_congr fun i hi => h (a + i) (by omega)

theorem Same.fileName (h : Same e e') : fileName e = fileName e' := by
  rw [BMFS.fileName, BMFS.fileName, h.get (by decide)]

theorem Same.startingBlock (h : Same e e') : startingBlock e = startingBlock e' := by
  rw [BMFS.startingBlock, BMFS.startingBlock, h.get (by decide)]

theorem Same.reservedBlocks (h : Same e e') : reservedBlocks e = reservedBlocks e' := by
  rw [BMFS.reservedBlocks, BMFS.reservedBlocks, h.get (by decide)]

theorem Same.fileSize (h : Same e e') : fileSize e = fileSize e' := by
  rw [BMFS.fileSize, BMFS.fileSize, h.get (by decide)]

/-- Bytes are written in one record, and the others stay. -/
theorem entry_put_of_ne (hne : k ≠ j) (hl : a + l.length ≤ 64) :
    Same (entry (put (64 * j + a) l D) k) (entry D k) := by
  intro i hi
  apply put_outside
  omega

theorem entry_put : entry (put (64 * j + a) l D) j = put a l (entry D j) := by
  funext i
  have hle : 64 * j + a ≤ 64 * j + i ↔ a ≤ i := by omega
  have hsub : 64 * j + i - (64 * j + a) = i - a := by omega
  simp only [entry, put, hle, hsub]

/-! ### Names -/

/-- A name ends in its record, and neither ends nor empties it. -/
structure Proper (filename : List UInt8) : Prop where
  nonempty : filename ≠ []
  short : filename.length < 32
  terminated : 0 ∉ filename
  used : filename.head? ≠ some 1

theorem fileName_iff (hl : filename.length < 64) : fileName e = filename ↔
    0 ∉ filename ∧ (∀ i (hi : i < filename.length), e i = filename[i]) ∧
      e filename.length = 0 := by
  have h := @takeWhile_get_iff 0 64 filename e hl
  simp only [Nat.zero_add] at h
  exact h

/-- Bytes behind the name do not matter. -/
theorem fileName_put (hshort : (fileName e).length < 32) (ha : 32 ≤ a) :
    fileName (put a l e) = fileName e := by
  obtain ⟨hzero, hbytes, hend⟩ := (fileName_iff (by omega)).mp (rfl : fileName e = fileName e)
  refine (fileName_iff (by omega)).mpr ⟨hzero, fun i hi => ?_, ?_⟩
  · rw [put_outside (by omega)]
    exact hbytes i hi
  · rw [put_outside (by omega)]
    exact hend

theorem fileName_put_name (h : Proper filename) :
    fileName (put 0 (filename ++ [0]) e) = filename := by
  have hshort := h.short
  refine (fileName_iff (by omega)).mpr ⟨h.terminated, fun i hi => ?_, ?_⟩
  · rw [put_inside (Nat.zero_le i) (by simp; omega), List.getElem_append_left (by simpa using hi)]
    rfl
  · rw [put_inside (Nat.zero_le _) (by simp)]
    simp

theorem put_name_zero (h : Proper filename) :
    put 0 (filename ++ [0]) e 0 ≠ 0 ∧ put 0 (filename ++ [0]) e 0 ≠ 1 := by
  obtain ⟨c, cs, rfl⟩ := List.exists_cons_of_ne_nil h.nonempty
  have hzero := h.terminated
  have hone := h.used
  have hbyte : put 0 (c :: cs ++ [0]) e 0 = c := by simp [put]
  rw [hbyte]
  constructor
  · intro hc
    exact hzero (by simp [hc])
  · intro hc
    exact hone (by simp [hc])

/-! ### The loops over the records -/

/-- `n` records stand in front of the end of the directory. -/
structure Used (D : Bytes) (n : ℕ) : Prop where
  le : n ≤ 64
  records : ∀ k < n, entry D k 0 ≠ 0
  ends : n < 64 → entry D n 0 = 0

/-- The record belongs to a file. -/
def Live (D : Bytes) (k : ℕ) : Prop := entry D k 0 ≠ 1

instance (D : Bytes) (k : ℕ) : Decidable (Live D k) := inferInstanceAs (Decidable (_ ≠ _))

theorem Used.zero_iff (h : Used D n) (htint : tint < 64) (hle : tint ≤ n) :
    entry D tint 0 = 0 ↔ tint = n := by
  constructor
  · intro hzero
    by_contra hne
    exact h.records tint (by omega) hzero
  · rintro rfl
    exact h.ends htint

theorem findfileFrom_spec (h : Used D n) (hm : tint + m = 64) (hle : tint ≤ n) :
    (∀ k, findfileFrom D filename m tint = some k →
      k < n ∧ Live D k ∧ fileName (entry D k) = filename) ∧
    (findfileFrom D filename m tint = none →
      ∀ k, tint ≤ k → k < n → Live D k → fileName (entry D k) ≠ filename) := by
  induction m generalizing tint with
  | zero =>
    refine ⟨fun k hk => (by cases hk), fun _ k hlo hhi => ?_⟩
    have hn := h.le
    omega
  | succ m ih =>
    have hzero := h.zero_iff (show tint < 64 by omega) hle
    simp only [findfileFrom, hzero]
    by_cases hend : tint = n
    · rw [if_pos hend]
      exact ⟨fun k hk => (by cases hk), fun _ k hlo hhi => by omega⟩
    · have hrest := @ih (tint + 1) (by omega) (by omega)
      rw [if_neg hend]
      by_cases hone : entry D tint 0 = 1
      · rw [if_pos hone]
        refine ⟨hrest.1, fun hnone k hlo hhi hlive => ?_⟩
        rcases Nat.eq_or_lt_of_le hlo with rfl | hlt
        · exact absurd hone hlive
        · exact hrest.2 hnone k hlt hhi hlive
      · rw [if_neg hone]
        by_cases hname : filename = fileName (entry D tint)
        · rw [if_pos hname]
          refine ⟨fun k hk => ?_, fun hnone => by cases hnone⟩
          obtain rfl := Option.some.inj hk
          exact ⟨by omega, hone, hname.symm⟩
        · rw [if_neg hname]
          refine ⟨hrest.1, fun hnone k hlo hhi hlive => ?_⟩
          rcases Nat.eq_or_lt_of_le hlo with rfl | hlt
          · exact Ne.symm hname
          · exact hrest.2 hnone k hlt hhi hlive

/-- A line of `list`. -/
def line (e : Bytes) : List UInt8 × ℕ × ℕ := (fileName e, fileSize e, reservedBlocks e * 2 % 2 ^ 64)

theorem listFrom_eq (h : Used D n) (hm : tint + m = 64) (hle : tint ≤ n) :
    listFrom D m tint = ((List.range' tint (n - tint)).filter (Live D ·)).map
      fun k => line (entry D k) := by
  induction m generalizing tint with
  | zero =>
    have hn := h.le
    rw [show n - tint = 0 by omega]
    rfl
  | succ m ih =>
    have hzero := h.zero_iff (show tint < 64 by omega) hle
    simp only [listFrom, hzero]
    by_cases hend : tint = n
    · rw [if_pos hend, hend, Nat.sub_self]
      rfl
    · have hrest := @ih (tint + 1) (by omega) (by omega)
      rw [if_neg hend, hrest, show n - tint = (n - (tint + 1)) + 1 by omega, List.range'_succ]
      by_cases hone : entry D tint 0 = 1
      · simp [hone, Live]
      · simp [hone, Live, line]

/-- What `create` finds when the directory has an end. -/
theorem countFrom_spec (h : Used D n) (hn : n < 64) (hm : tint + m = 64) (hle : tint ≤ n)
    (free : Option ℕ) : ∃ k, countFrom D m tint free = (n, some k) ∧
      (free = some k ∨ free = none ∧ (k < n ∧ ¬ Live D k ∨ k = n)) := by
  induction m generalizing tint free with
  | zero => omega
  | succ m ih =>
    have hzero := h.zero_iff (show tint < 64 by omega) hle
    simp only [countFrom, hzero]
    by_cases hend : tint = n
    · rw [if_pos hend]
      cases free with
      | none => exact ⟨tint, by simp [hend], by simp [hend]⟩
      | some k => exact ⟨k, by simp [hend], by simp⟩
    · rw [if_neg hend]
      by_cases hone : entry D tint 0 = 1
      · rw [if_pos hone]
        obtain ⟨k, hk, hfree⟩ := @ih (tint + 1) (by omega) (by omega) (free <|> some tint)
        refine ⟨k, hk, ?_⟩
        cases free with
        | none =>
          have hk' : tint = k := by simpa using hfree
          exact Or.inr ⟨rfl, Or.inl ⟨by omega, by simpa [Live, ← hk'] using hone⟩⟩
        | some j => simpa using hfree
      · rw [if_neg hone]
        exact @ih (tint + 1) (by omega) (by omega) free

/-- In a directory without an end that has no record to spare. -/
theorem countFrom_full (h : Used D 64) (hlive : ∀ k < 64, Live D k) (hm : tint + m = 64) :
    countFrom D m tint none = (0, none) := by
  induction m generalizing tint with
  | zero => rfl
  | succ m ih =>
    have htint : tint < 64 := by omega
    simp only [countFrom, if_neg (h.records tint htint), if_neg (hlive tint htint)]
    exact ih (by omega)

/-! ### The search for an area -/

/-- The blocks of a record. -/
def area (e : Bytes) : ℕ × ℕ := (startingBlock e, reservedBlocks e)

/-- The block behind a record. -/
def fileEnd (e : Bytes) : ℕ := startingBlock e + reservedBlocks e

theorem startingBlockCmp_used (he : e 0 ≠ 1) (he' : e' 0 ≠ 1) (hstart : startingBlock e < 2 ^ 31)
    (hstart' : startingBlock e' < 2 ^ 31) :
    startingBlockCmp e e' = (startingBlock e : ℤ) - startingBlock e' := by
  rw [startingBlockCmp, if_neg he, if_neg he']
  generalize startingBlock e = x at *
  generalize startingBlock e' = y at *
  by_cases hle : y ≤ x
  · rw [uint64Sub_eq hle (by omega), int32_eq (by unfold intMin; omega) (by unfold intMax; omega)]
    omega
  · -- the difference has wrapped around
    have hwrap : uint64Sub x y = 2 ^ 64 - (y - x) := by
      unfold uint64Sub
      omega
    rw [hwrap, int32, Int.bmod_def]
    split_ifs
    · omega
    · omega

theorem precedes_iff (he : startingBlock e < 2 ^ 31) (he' : startingBlock e' < 2 ^ 31) :
    Precedes e e' ↔ e' 0 = 1 ∨ e 0 ≠ 1 ∧ startingBlock e ≤ startingBlock e' := by
  unfold Precedes
  by_cases hone : e 0 = 1
  · by_cases hone' : e' 0 = 1
    · simp [startingBlockCmp, hone, hone']
    · simp [startingBlockCmp, hone, hone']
  · by_cases hone' : e' 0 = 1
    · simp [startingBlockCmp, hone, hone']
    · rw [startingBlockCmp_used hone hone' he he', startingBlockCmp_used hone' hone he' he]
      simp only [hone, hone', ne_eq, not_false_eq_true, true_and, false_or]
      omega

theorem sort_deleted_last (q : Qsort) (L : List Bytes) (hL : ∀ e ∈ L, startingBlock e < 2 ^ 31) :
    (q.sort L).Pairwise fun e e' => e 0 = 1 → e' 0 = 1 := by
  apply (q.sorted L hL).imp_of_mem
  intro e e' he he' h hone
  rw [(q.perm L).mem_iff] at he he'
  rw [precedes_iff (hL e he) (hL e' he')] at h
  rcases h with hone' | ⟨hused, -⟩
  · exact hone'
  · exact absurd hone hused

theorem sort_used (q : Qsort) (L : List Bytes) (hL : ∀ e ∈ L, startingBlock e < 2 ^ 31) :
    (((q.sort L).filter (· 0 ≠ 1)).map area).Pairwise fun x y => x.1 ≤ y.1 := by
  rw [List.pairwise_map]
  apply ((q.sorted L hL).filter _).imp_of_mem
  intro e e' he he' h
  rw [List.mem_filter, (q.perm L).mem_iff, decide_eq_true_eq] at he he'
  rw [precedes_iff (hL e he.1) (hL e' he'.1)] at h
  exact (h.resolve_left he'.2).2

variable {last prev requested : ℕ} {L : List Bytes}

/-- Behind the files the search goes on at the ends of the deleted ones. -/
theorem searchArea_deleted (hall : ∀ e ∈ L, e 0 = 1) (hends : ∀ e ∈ L, fileEnd e ≤ last)
    (hprev : prev ≤ last) (hlast : last < 2 ^ 31) :
    searchArea (last + 1) requested prev L =
      ((prev :: L.map fileEnd).find? fun p => p + requested ≤ last).getD 0 := by
  have hsub : uint64Sub (last + 1) 1 = last := by
    rw [uint64Sub_eq (by omega) (by omega), Nat.add_sub_cancel]
  induction L generalizing prev with
  | nil =>
    rw [searchArea, hsub, uint64Sub_eq hprev (by omega)]
    by_cases hfit : requested ≤ last - prev
    · rw [if_pos hfit]
      simp [show prev + requested ≤ last by omega]
    · rw [if_neg hfit]
      simp [show ¬ prev + requested ≤ last by omega]
  | cons e L ih =>
    have hend := hends e List.mem_cons_self
    have hrest := @ih (fileEnd e) (fun e' he' => hall e' (List.mem_cons_of_mem _ he'))
      (fun e' he' => hends e' (List.mem_cons_of_mem _ he')) hend
    rw [searchArea, if_pos (hall e List.mem_cons_self), hsub, uint64Sub_eq hprev (by omega)]
    by_cases hfit : requested ≤ last - prev
    · rw [if_pos hfit]
      simp [show prev + requested ≤ last by omega]
    · have hmod : (startingBlock e + reservedBlocks e) % 2 ^ 64 = fileEnd e := by
        apply Nat.mod_eq_of_lt
        unfold fileEnd at hend
        omega
      rw [if_neg hfit, hmod, hrest]
      simp [show ¬ prev + requested ≤ last by omega]

/-- A gap between the files is found first. -/
theorem searchArea_eq (hsorted : L.Pairwise fun e e' => e 0 = 1 → e' 0 = 1)
    (hordered : Ordered last prev ((L.filter (· 0 ≠ 1)).map area))
    (hends : ∀ e ∈ L, e 0 = 1 → fileEnd e ≤ last) (hlast : last < 2 ^ 31) :
    searchArea (last + 1) requested prev L =
      (firstFit last requested prev ((L.filter (· 0 ≠ 1)).map area)).getD
        ((((L.filter (· 0 = 1)).map fileEnd).find? fun p => p + requested ≤ last).getD 0) := by
  induction L generalizing prev with
  | nil =>
    rw [searchArea_deleted (by simp) (by simp) hordered.le hlast]
    by_cases hfit : prev + requested ≤ last
    · simp [firstFit, hfit]
    · simp [firstFit, hfit]
  | cons e L ih =>
    rw [List.pairwise_cons] at hsorted
    have hends' := fun e' he' => hends e' (List.mem_cons_of_mem e he')
    by_cases hone : e 0 = 1
    · -- no file is left
      have hall : ∀ e' ∈ e :: L, e' 0 = 1 := by
        intro e' he'
        cases he' with
        | head => exact hone
        | tail _ he' => exact hsorted.1 e' he' hone
      have hused : (e :: L).filter (· 0 ≠ 1) = [] := by
        rw [List.filter_eq_nil_iff]
        intro e' he'
        simp [hall e' he']
      have hdeleted : (e :: L).filter (· 0 = 1) = e :: L := by
        rw [List.filter_eq_self]
        intro e' he'
        simp [hall e' he']
      rw [searchArea_deleted hall (fun e' he' => hends e' he' (hall e' he')) hordered.le hlast,
        hused, hdeleted]
      by_cases hfit : prev + requested ≤ last
      · simp [firstFit, hfit]
      · simp [firstFit, hfit]
    · have hused : (e :: L).filter (· 0 ≠ 1) = e :: L.filter (· 0 ≠ 1) := by simp [hone]
      have hdeleted : (e :: L).filter (· 0 = 1) = L.filter (· 0 = 1) := by simp [hone]
      rw [hused, List.map_cons] at hordered ⊢
      rw [hdeleted]
      have hstart := hordered.1
      have hend : fileEnd e ≤ last := hordered.2.le
      have hrest := ih hsorted.2 hordered.2 hends'
      change prev ≤ startingBlock e at hstart
      unfold fileEnd at hend
      have hmod : (startingBlock e + reservedBlocks e) % 2 ^ 64 =
          startingBlock e + reservedBlocks e := Nat.mod_eq_of_lt (by omega)
      rw [searchArea, if_neg hone, uint64Sub_eq hstart (by omega), firstFit, hmod]
      by_cases hfit : prev + requested ≤ (area e).1
      · have hroom : requested ≤ startingBlock e - prev := Nat.le_sub_of_add_le' hfit
        rw [if_pos hfit, if_pos hroom]
        rfl
      · have hroom : ¬ requested ≤ startingBlock e - prev := by
          change ¬ prev + requested ≤ startingBlock e at hfit
          omega
        rw [if_neg hfit, if_neg hroom]
        exact hrest

/-! ### A routine that sorts -/

theorem sorted_orderedInsert (he : startingBlock e < 2 ^ 31)
    (hL : ∀ x ∈ L, startingBlock x < 2 ^ 31) (hsorted : L.Pairwise Precedes) :
    (L.orderedInsert (fun ea eb => startingBlockCmp ea eb ≤ 0) e).Pairwise Precedes := by
  induction L with
  | nil => simp
  | cons b L ih =>
    have hb := hL b List.mem_cons_self
    have hrest := fun x hx => hL x (List.mem_cons_of_mem b hx)
    rw [List.pairwise_cons] at hsorted
    rw [List.orderedInsert]
    split_ifs with hle
    · refine List.pairwise_cons.mpr ⟨fun x hx => ?_, List.pairwise_cons.mpr hsorted⟩
      have heb : Precedes e b := Or.inl hle
      cases hx with
      | head => exact heb
      | tail _ hx =>
        have hbx := hsorted.1 x hx
        have hused : e 0 ≠ 1 := by
          intro hone
          simp [startingBlockCmp, hone] at hle
        rw [precedes_iff he hb] at heb
        rw [precedes_iff hb (hrest x hx)] at hbx
        rw [precedes_iff he (hrest x hx)]
        rcases hbx with hx1 | ⟨hb1, hbx⟩
        · exact Or.inl hx1
        · have heb' := heb.resolve_left hb1
          exact Or.inr ⟨hused, by omega⟩
    · refine List.pairwise_cons.mpr ⟨fun x hx => ?_, ih hrest hsorted.2⟩
      rcases (List.mem_orderedInsert _).mp hx with rfl | hx
      · exact Or.inr (by omega)
      · exact hsorted.1 x hx

def insertionSort : Qsort where
  sort L := L.insertionSort fun ea eb => startingBlockCmp ea eb ≤ 0
  perm L := List.perm_insertionSort _ L
  sorted L hL := by
    induction L with
    | nil => exact List.Pairwise.nil
    | cons e L ih =>
      have hrest := fun x hx => hL x (List.mem_cons_of_mem e hx)
      exact sorted_orderedInsert (hL e List.mem_cons_self)
        (fun x hx => hrest x ((List.perm_insertionSort _ L).mem_iff.mp hx)) (ih hrest)

end

end GatOS.BMFS
