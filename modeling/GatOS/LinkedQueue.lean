import GatOS.DoublyLinkedList
import GatOS.QueuedMutex

/-!
# Linked queues

`queue.c` on a memory of words. `struct queue` and `node` have two words each: `first` and `last`,
`elem` and `next`.
-/
namespace GatOS.LinkedQueue

open Scheduler LinkedRing DoublyLinkedList Transition

abbrev Memory := ℕ → ℕ

def wordSize : ℕ := 8

def first (q : ℕ) (memory : Memory) : ℕ := memory q

def last (q : ℕ) (memory : Memory) : ℕ := memory (q + wordSize)

def elem (memory : Memory) (node : ℕ) : ℕ := memory node

def next (memory : Memory) (node : ℕ) : ℕ := memory (node + wordSize)

def setFirst (q node : ℕ) (memory : Memory) : Memory := Function.update memory q node

def setLast (q node : ℕ) (memory : Memory) : Memory :=
  Function.update memory (q + wordSize) node

def setElem (node elem : ℕ) (memory : Memory) : Memory := Function.update memory node elem

def setNext (node next : ℕ) (memory : Memory) : Memory :=
  Function.update memory (node + wordSize) next

/-- `page` is what `allocPage` returns. -/
def createQueue (page : ℕ) (memory : Memory) : ℕ × Memory :=
  if page = null then (null, memory) else (page, setLast page null (setFirst page null memory))

def isEmpty (q : ℕ) (memory : Memory) : ℤ := if q = null ∨ first q memory = null then 1 else 0

/-- `newNode` is what `allocPage` returns. -/
def enqueue (q newNode elem : ℕ) (memory : Memory) : Memory :=
  if q = null then memory
  else
    let memory := setNext newNode null (setElem newNode elem memory)
    if first q memory = null then setLast q newNode (setFirst q newNode memory)
    else setLast q newNode (setNext (last q memory) newNode memory)

def peek (q : ℕ) (memory : Memory) : ℕ :=
  if isEmpty q memory = 1 then null else elem memory (first q memory)

/-- The result, and the node that is given to `deallocPage`. -/
def dequeue (q : ℕ) (memory : Memory) : ℕ × Option ℕ × Memory :=
  if isEmpty q memory = 1 then (null, none, memory)
  else
    let f := first q memory
    let memory' := setFirst q (next memory f) memory
    (elem memory f, some f,
      if first q memory' = null then setLast q null memory' else memory')

/-! ### Runs -/

/-- `owned` are the pages that the queue has got from `allocPage` and has not given back. -/
structure Pages where
  memory : Memory
  owned : List ℕ

/-- Two records do not overlap. -/
def Apart (a b : ℕ) : Prop := a + 2 * wordSize ≤ b ∨ b + 2 * wordSize ≤ a

/-- What `allocPage` may return. -/
def Fresh (owned : List ℕ) (page : ℕ) : Prop := page ≠ null ∧ ∀ a ∈ owned, Apart page a

/-- A call with its result. `others`: what does not belong to the queue changes. -/
inductive Event
  | enqueue (elem : ℕ)
  | dequeue (result : ℕ)
  | peek (result : ℕ)
  | isEmpty (result : ℤ)
  | others

inductive Step (q : ℕ) : Pages → Event → Pages → Prop
  | enqueue {s : Pages} {page elem : ℕ} (hpage : Fresh s.owned page) (helem : elem ≠ null) :
      Step q s (.enqueue elem) ⟨enqueue q page elem s.memory, page :: s.owned⟩
  | dequeue {s : Pages} :
      Step q s (.dequeue (dequeue q s.memory).1)
        ⟨(dequeue q s.memory).2.2, s.owned.filter fun a => some a ≠ (dequeue q s.memory).2.1⟩
  | peek {s : Pages} : Step q s (.peek (peek q s.memory)) s
  | isEmpty {s : Pages} : Step q s (.isEmpty (isEmpty q s.memory)) s
  | others {s : Pages} {memory : Memory}
      (hsame : ∀ a ∈ s.owned, memory a = s.memory a ∧
        memory (a + wordSize) = s.memory (a + wordSize)) :
      Step q s .others ⟨memory, s.owned⟩

/-- The runs start when `create_queue` has returned `q`. -/
def system (q : ℕ) : System Pages Event where
  init s := q ≠ null ∧ ∃ memory, s = ⟨(createQueue q memory).2, [q]⟩
  step := Step q

/-- The elements that were put into the queue. -/
def accepted (events : List Event) : List ℕ :=
  events.filterMap fun
    | .enqueue elem => some elem
    | _ => none

/-- The elements that were taken out of it. -/
def delivered (events : List Event) : List ℕ :=
  events.filterMap fun
    | .dequeue result => if result = null then none else some result
    | _ => none

/-! ### The list of nodes -/

/-- The nodes from `first` to `last`. -/
structure Represents (q : ℕ) (s : Pages) (nodes : List ℕ) : Prop where
  chain : Chain (next s.memory) (first q s.memory) nodes null
  last_eq : last q s.memory = nodes.getLast?.getD null
  owned : ∀ a ∈ q :: nodes, a ∈ s.owned
  apart : (q :: nodes).Pairwise Apart
  null_notMem : null ∉ q :: nodes

theorem Apart.symm {a b : ℕ} (h : Apart a b) : Apart b a := Or.symm h

instance : Std.Symm Apart := ⟨fun _ _ => Apart.symm⟩

section

variable {q page e : ℕ} {s : Pages} {nodes : List ℕ} {memory : Memory}

theorem Represents.ne_null (h : Represents q s nodes) : q ≠ null :=
  fun hq => h.null_notMem (hq ▸ List.mem_cons_self)

theorem Represents.apart_queue (h : Represents q s nodes) {a : ℕ} (ha : a ∈ nodes) : Apart q a :=
  (List.pairwise_cons.mp h.apart).1 a ha

theorem Represents.nodup (h : Represents q s nodes) : (q :: nodes).Nodup := by
  refine h.apart.imp fun {a b} hab heq => ?_
  have hw : wordSize = 8 := rfl
  unfold Apart at hab
  omega

theorem Represents.first_eq_null_iff (h : Represents q s nodes) :
    first q s.memory = null ↔ nodes = [] := by
  cases nodes with
  | nil => exact iff_of_true h.chain rfl
  | cons a l =>
    refine iff_of_false (fun heq => h.null_notMem ?_) (List.cons_ne_nil a l)
    rw [← heq, h.chain.1]
    exact List.mem_cons_of_mem q List.mem_cons_self

theorem Represents.isEmpty_eq (h : Represents q s nodes) :
    isEmpty q s.memory = if nodes = [] then 1 else 0 := by
  unfold isEmpty
  simp only [h.ne_null, false_or, h.first_eq_null_iff]

theorem Represents.ends (h : Represents q s nodes) :
    first q s.memory = null ↔ last q s.memory = null := by
  rw [h.first_eq_null_iff, h.last_eq]
  induction nodes using List.reverseRecOn with
  | nil => exact iff_of_true rfl rfl
  | append_singleton l x _ =>
    refine iff_of_false (by simp) fun heq => h.null_notMem ?_
    rw [List.getLast?_concat, Option.getD_some] at heq
    simp [heq]

theorem Represents.final (h : Represents q s nodes) (hne : last q s.memory ≠ null) :
    Visits (next s.memory) null (first q s.memory) (last q s.memory) ∧
      next s.memory (last q s.memory) = null := by
  have hnull : null ∉ nodes := fun hmem => h.null_notMem (List.mem_cons_of_mem q hmem)
  rw [visits_iff_of_chain h.chain hnull]
  induction nodes using List.reverseRecOn with
  | nil => exact absurd h.last_eq hne
  | append_singleton l x _ =>
    have hlast : last q s.memory = x := h.last_eq.trans (by simp)
    rw [hlast]
    exact ⟨by simp, h.chain.next_last⟩

/-- Only the records of the queue are read. -/
theorem Represents.congr (h : Represents q s nodes) {owned : List ℕ}
    (hsame : ∀ a ∈ q :: nodes, memory a = s.memory a ∧
      memory (a + wordSize) = s.memory (a + wordSize))
    (howned : ∀ a ∈ q :: nodes, a ∈ owned) : Represents q ⟨memory, owned⟩ nodes where
  chain := by
    have hfirst : first q memory = first q s.memory := (hsame q List.mem_cons_self).1
    show Chain (next memory) (first q memory) nodes null
    rw [hfirst]
    exact h.chain.congr fun a ha => (hsame a (List.mem_cons_of_mem q ha)).2
  last_eq := (hsame q List.mem_cons_self).2.trans h.last_eq
  owned := howned
  apart := h.apart
  null_notMem := h.null_notMem

theorem represents_createQueue (hq : q ≠ null) :
    Represents q ⟨(createQueue q memory).2, [q]⟩ [] where
  chain := by
    show first q (createQueue q memory).2 = null
    rw [createQueue, if_neg hq]
    exact (Function.update_of_ne (by unfold wordSize; omega) _ _).trans
      (Function.update_self _ _ _)
  last_eq := by
    show last q (createQueue q memory).2 = null
    rw [createQueue, if_neg hq]
    exact Function.update_self _ _ _
  owned := fun a ha => ha
  apart := List.pairwise_singleton Apart q
  null_notMem := fun h => hq (List.mem_singleton.mp h).symm

/-- The words of the new node, and of the records that do not overlap it. -/
theorem newNode_words (page e : ℕ) (memory : Memory) :
    elem (setNext page null (setElem page e memory)) page = e ∧
      next (setNext page null (setElem page e memory)) page = null ∧
      ∀ a, Apart page a →
        setNext page null (setElem page e memory) a = memory a ∧
          setNext page null (setElem page e memory) (a + wordSize) = memory (a + wordSize) := by
  have hw : wordSize = 8 := rfl
  refine ⟨?_, Function.update_self _ _ _, fun a ha => ⟨?_, ?_⟩⟩
  · exact (Function.update_of_ne (by omega) _ _).trans (Function.update_self _ _ _)
  · unfold Apart at ha
    exact (Function.update_of_ne (by omega) _ _).trans (Function.update_of_ne (by omega) _ _)
  · unfold Apart at ha
    exact (Function.update_of_ne (by omega) _ _).trans (Function.update_of_ne (by omega) _ _)

/-- The new node is written before it is linked. -/
theorem Represents.newNode (h : Represents q s nodes) (hpage : Fresh s.owned page) (e : ℕ) :
    Represents q ⟨setNext page null (setElem page e s.memory), page :: s.owned⟩ nodes :=
  h.congr (fun a ha => (newNode_words page e s.memory).2.2 a (hpage.2 a (h.owned a ha)))
    fun a ha => List.mem_cons_of_mem page (h.owned a ha)

theorem Represents.apart_of_ne (h : Represents q s nodes) {a b : ℕ} (ha : a ∈ nodes)
    (hb : b ∈ nodes) (hne : a ≠ b) : Apart a b :=
  (List.pairwise_cons.mp h.apart).2.forall ha hb hne

/-- What a new last node changes. -/
structure Appended (q page : ℕ) (nodes : List ℕ) (memory memory' : Memory) : Prop where
  chain : Chain (next memory') (first q memory') (nodes ++ [page]) null
  last_eq : last q memory' = page
  elem_eq : ∀ a ∈ nodes ++ [page], elem memory' a = elem memory a

theorem appended_nil (hpage : Apart page q) (hnext : next memory page = null) :
    Appended q page [] memory (setLast q page (setFirst q page memory)) := by
  have hw : wordSize = 8 := rfl
  unfold Apart at hpage
  refine ⟨⟨?_, ?_⟩, Function.update_self _ _ _, fun a ha => ?_⟩
  · exact (Function.update_of_ne (by omega) _ _).trans (Function.update_self _ _ _)
  · exact ((Function.update_of_ne (by omega) _ _).trans
      (Function.update_of_ne (by omega) _ _)).trans hnext
  · rw [List.mem_singleton.mp ha]
    exact (Function.update_of_ne (by omega) _ _).trans (Function.update_of_ne (by omega) _ _)

theorem Represents.appended_concat {l : List ℕ} {x : ℕ} (h : Represents q s (l ++ [x]))
    (hpage : ∀ a ∈ q :: (l ++ [x]), Apart page a) (hnext : next s.memory page = null) :
    Appended q page (l ++ [x]) s.memory (setLast q page (setNext x page s.memory)) := by
  have hw : wordSize = 8 := rfl
  have hx : x ∈ l ++ [x] := by simp
  have hqx := h.apart_queue hx
  have hpq := hpage q List.mem_cons_self
  have hpx := hpage x (List.mem_cons_of_mem q hx)
  have hxl : x ∉ l := fun hmem => (List.nodup_append.mp (List.nodup_cons.mp h.nodup).2).2.2
    x hmem x List.mem_cons_self rfl
  -- The nodes before `x` keep their links.
  have hl : ∀ a ∈ l, next (setLast q page (setNext x page s.memory)) a = next s.memory a := by
    intro a ha
    have hmem : a ∈ l ++ [x] := List.mem_append_left [x] ha
    have hqa := h.apart_queue hmem
    have hxa := h.apart_of_ne hx hmem fun heq => hxl (heq ▸ ha)
    unfold Apart at hqa hxa
    exact (Function.update_of_ne (by omega) _ _).trans (Function.update_of_ne (by omega) _ _)
  unfold Apart at hqx hpq hpx
  constructor
  · have hfirst : first q (setLast q page (setNext x page s.memory)) = first q s.memory :=
      (Function.update_of_ne (by omega) _ _).trans (Function.update_of_ne (by omega) _ _)
    rw [hfirst, List.append_assoc]
    refine h.chain.link hl (fun _ hz => absurd hz List.not_mem_nil) ?_ ?_
    · exact (Function.update_of_ne (by omega) _ _).trans (Function.update_self _ _ _)
    · rw [h.chain.next_last, ← hnext]
      exact (Function.update_of_ne (by omega) _ _).trans (Function.update_of_ne (by omega) _ _)
  · exact Function.update_self _ _ _
  · intro a ha
    have hqa : Apart q a := by
      cases List.mem_append.mp ha with
      | inl hmem => exact h.apart_queue hmem
      | inr hmem => exact (List.mem_singleton.mp hmem) ▸ (hpage q List.mem_cons_self).symm
    have hxa : a = x ∨ Apart x a := by
      cases List.mem_append.mp ha with
      | inl hmem => exact (em (a = x)).imp_right fun hne => h.apart_of_ne hx hmem (Ne.symm hne)
      | inr hmem =>
        exact Or.inr ((List.mem_singleton.mp hmem) ▸
          (hpage x (List.mem_cons_of_mem q hx)).symm)
    unfold Apart at hqa hxa
    exact (Function.update_of_ne (by omega) _ _).trans (Function.update_of_ne (by omega) _ _)

theorem Represents.enqueue (h : Represents q s nodes) (hpage : Fresh s.owned page) (e : ℕ) :
    Represents q ⟨enqueue q page e s.memory, page :: s.owned⟩ (nodes ++ [page]) ∧
      (nodes ++ [page]).map (elem (LinkedQueue.enqueue q page e s.memory)) =
        nodes.map (elem s.memory) ++ [e] := by
  obtain ⟨helem, hnext, hsame⟩ := newNode_words page e s.memory
  have hnew := h.newNode hpage e
  have hapart : ∀ a ∈ q :: nodes, Apart page a := fun a ha => hpage.2 a (h.owned a ha)
  have happended : Appended q page nodes (setNext page null (setElem page e s.memory))
      (LinkedQueue.enqueue q page e s.memory) := by
    induction nodes using List.reverseRecOn with
    | nil =>
      have hfirst : first q (setNext page null (setElem page e s.memory)) = null := hnew.chain
      rw [LinkedQueue.enqueue, if_neg h.ne_null]
      simp only [if_pos hfirst]
      exact appended_nil (hapart q List.mem_cons_self) hnext
    | append_singleton l x _ =>
      have hfirst := mt hnew.first_eq_null_iff.mp (by simp)
      have hlast : last q (setNext page null (setElem page e s.memory)) = x :=
        hnew.last_eq.trans (by simp)
      rw [LinkedQueue.enqueue, if_neg h.ne_null]
      simp only [if_neg hfirst, hlast]
      exact hnew.appended_concat hapart hnext
  constructor
  · refine ⟨happended.chain, happended.last_eq.trans (by simp), fun a ha => ?_, ?_, ?_⟩
    · rw [← List.cons_append] at ha
      cases List.mem_append.mp ha with
      | inl hmem => exact List.mem_cons_of_mem page (h.owned a hmem)
      | inr hmem => exact (List.mem_singleton.mp hmem) ▸ List.mem_cons_self
    · rw [← List.cons_append, List.pairwise_append]
      refine ⟨h.apart, List.pairwise_singleton _ _, fun a ha b hb => ?_⟩
      rw [List.mem_singleton.mp hb]
      exact (hapart a ha).symm
    · rw [← List.cons_append, List.mem_append, List.mem_singleton, not_or]
      exact ⟨h.null_notMem, Ne.symm hpage.1⟩
  · rw [List.map_congr_left happended.elem_eq, List.map_append, List.map_singleton, helem]
    congr 1
    exact List.map_congr_left fun a ha => (hsame a (hapart a (List.mem_cons_of_mem q ha))).1

/-- `first` moves on, and `last` is cleared with the last node. -/
theorem Represents.dequeue {f : ℕ} (h : Represents q s (f :: nodes)) :
    ∃ memory, dequeue q s.memory = (elem s.memory f, some f, memory) ∧
      Represents q ⟨memory, s.owned.filter fun a => some a ≠ some f⟩ nodes ∧
      nodes.map (elem memory) = nodes.map (elem s.memory) := by
  have hw : wordSize = 8 := rfl
  have hfirst : first q s.memory = f := h.chain.1
  have hempty : isEmpty q s.memory ≠ 1 := by
    rw [h.isEmpty_eq, if_neg (List.cons_ne_nil f nodes)]
    exact zero_ne_one
  have hf : f ∉ q :: nodes := by
    have hnodup := (List.Perm.swap f q nodes).nodup_iff.mp h.nodup
    exact (List.nodup_cons.mp hnodup).1
  -- Only the two words of `q` are written.
  have hwords : ∀ a ∈ nodes, a ≠ q ∧ a ≠ q + wordSize ∧ a + wordSize ≠ q ∧
      a + wordSize ≠ q + wordSize := by
    intro a ha
    have hqa := h.apart_queue (List.mem_cons_of_mem f ha)
    unfold Apart at hqa
    omega
  have hnull : null ∉ q :: nodes := fun hmem => h.null_notMem <| by
    cases List.mem_cons.mp hmem with
    | inl heq => exact heq ▸ List.mem_cons_self
    | inr hmem => exact List.mem_cons_of_mem q (List.mem_cons_of_mem f hmem)
  have hkept : ∀ a ∈ q :: nodes, a ∈ s.owned.filter fun a => some a ≠ some f := by
    intro a ha
    have hne : a ≠ f := fun heq => hf (heq ▸ ha)
    refine List.mem_filter.mpr ⟨h.owned a ?_, by simpa using hne⟩
    cases List.mem_cons.mp ha with
    | inl heq => exact heq ▸ List.mem_cons_self
    | inr hmem => exact List.mem_cons_of_mem q (List.mem_cons_of_mem f hmem)
  have hapart : (q :: nodes).Pairwise Apart :=
    h.apart.sublist ((List.sublist_cons_self f nodes).cons_cons q)
  have hchain : Chain (next s.memory) (next s.memory f) nodes null := hfirst ▸ h.chain.2
  rw [LinkedQueue.dequeue, if_neg hempty, hfirst]
  have hfirst' : first q (setFirst q (next s.memory f) s.memory) = next s.memory f :=
    Function.update_self _ _ _
  simp only [hfirst']
  cases nodes with
  | nil =>
    have hnext : next s.memory f = null := hchain
    rw [if_pos hnext]
    refine ⟨_, rfl, ⟨?_, Function.update_self _ _ _, hkept, hapart, hnull⟩, rfl⟩
    exact ((Function.update_of_ne (by omega) _ _).trans (Function.update_self _ _ _)).trans hnext
  | cons b l =>
    have hnext : next s.memory f ≠ null := by
      rw [hchain.1]
      exact fun hb => hnull (hb ▸ List.mem_cons_of_mem q List.mem_cons_self)
    rw [if_neg hnext]
    refine ⟨_, rfl, ⟨?_, ?_, hkept, hapart, hnull⟩, ?_⟩
    · show Chain _ (first q (setFirst q (next s.memory f) s.memory)) _ _
      rw [hfirst']
      exact hchain.congr fun a ha => Function.update_of_ne (hwords a ha).2.2.1 _ _
    · show last q (setFirst q (next s.memory f) s.memory) = _
      have hlast := h.last_eq
      rw [List.getLast?_cons_cons] at hlast
      exact (Function.update_of_ne (by omega) _ _).trans hlast
    · exact List.map_congr_left fun a ha => Function.update_of_ne (hwords a ha).1 _ _

/-! ### The abstract queue -/

/-- The records make up the queue that the mutexes and condition variables use. -/
def Refines (q : ℕ) (s : Pages) (a : QueuedMutex.Queue) : Prop :=
  ∃ nodes, Represents q s nodes ∧ nodes.map (elem s.memory) = a.elems ∧
    (a.elems ≠ [] → a.linked = true)

theorem refines_createQueue (hq : q ≠ null) : ∃ a, QueuedMutex.createQueue q = some a ∧
    a.elems = [] ∧ Refines q ⟨(createQueue q memory).2, [q]⟩ a :=
  ⟨⟨[], false⟩, if_neg hq, rfl, [], represents_createQueue hq, rfl, fun h => absurd rfl h⟩

theorem Refines.isEmpty {a : QueuedMutex.Queue} (h : Refines q s a) :
    isEmpty q s.memory = if QueuedMutex.isEmpty (some a) then 1 else 0 := by
  obtain ⟨nodes, hrep, helems, -⟩ := h
  rw [hrep.isEmpty_eq, QueuedMutex.isEmpty, ← helems]
  simp only [List.map_eq_nil_iff, decide_eq_true_eq]

theorem Refines.enqueue {a : QueuedMutex.Queue} (h : Refines q s a) (hpage : Fresh s.owned page) :
    Refines q ⟨enqueue q page e s.memory, page :: s.owned⟩ (QueuedMutex.enqueue page e a) ∧
      (QueuedMutex.enqueue page e a).elems = a.elems ++ [e] := by
  obtain ⟨nodes, hrep, helems, hlinked⟩ := h
  obtain ⟨hrep', helems'⟩ := hrep.enqueue hpage e
  have habs : QueuedMutex.enqueue page e a = ⟨a.elems ++ [e], true⟩ := by
    rw [QueuedMutex.enqueue]
    by_cases hnil : a.elems = []
    · rw [if_pos hnil, if_neg hpage.1, hnil]
      rfl
    · rw [if_neg hnil, hlinked hnil, if_pos rfl, if_neg hpage.1]
  rw [habs]
  exact ⟨⟨_, hrep', helems ▸ helems', fun _ => rfl⟩, rfl⟩

theorem Refines.dequeue {a : QueuedMutex.Queue} (h : Refines q s a) :
    ∃ a', QueuedMutex.dequeue (some a) = ((dequeue q s.memory).1, some a') ∧
      a'.elems = a.elems.tail ∧
      Refines q ⟨(LinkedQueue.dequeue q s.memory).2.2,
        s.owned.filter fun b => some b ≠ (LinkedQueue.dequeue q s.memory).2.1⟩ a' := by
  obtain ⟨nodes, hrep, helems, hlinked⟩ := h
  obtain ⟨elems, linked⟩ := a
  cases nodes with
  | nil =>
    have hdequeue : LinkedQueue.dequeue q s.memory = (null, none, s.memory) := by
      rw [LinkedQueue.dequeue, hrep.isEmpty_eq, if_pos rfl, if_pos rfl]
    cases helems
    rw [hdequeue]
    refine ⟨⟨[], linked⟩, rfl, rfl, [], ?_, rfl, hlinked⟩
    exact hrep.congr (fun _ _ => ⟨rfl, rfl⟩) fun b hb =>
      List.mem_filter.mpr ⟨hrep.owned b hb, rfl⟩
  | cons f nodes =>
    obtain ⟨memory, hdequeue, hrep', hmap⟩ := hrep.dequeue
    cases helems
    rw [hdequeue]
    exact ⟨⟨nodes.map (elem s.memory), linked⟩, rfl, rfl, nodes, hrep', hmap,
      fun _ => hlinked (List.cons_ne_nil _ _)⟩

theorem Refines.peek {a : QueuedMutex.Queue} (h : Refines q s a) :
    peek q s.memory = a.elems.headD null := by
  obtain ⟨nodes, hrep, helems, -⟩ := h
  rw [LinkedQueue.peek, hrep.isEmpty_eq, ← helems]
  cases nodes with
  | nil => rfl
  | cons f nodes =>
    rw [if_neg (List.cons_ne_nil f nodes), if_neg zero_ne_one, hrep.chain.1]
    rfl

theorem Refines.others {a : QueuedMutex.Queue} (h : Refines q s a)
    (hsame : ∀ b ∈ s.owned, memory b = s.memory b ∧
      memory (b + wordSize) = s.memory (b + wordSize)) : Refines q ⟨memory, s.owned⟩ a := by
  obtain ⟨nodes, hrep, helems, hlinked⟩ := h
  refine ⟨nodes, hrep.congr (fun b hb => hsame b (hrep.owned b hb)) hrep.owned, ?_, hlinked⟩
  rw [← helems]
  exact List.map_congr_left fun b hb => (hsame b (hrep.owned b (List.mem_cons_of_mem q hb))).1

end

/-! ### First in, first out -/

/-- How a queue answers after `enqueued` has been put in and `dequeued` has been taken out. -/
structure IsFifo (q : ℕ) (memory : Memory) (enqueued dequeued : List ℕ) : Prop where
  order : dequeued <+: enqueued
  dequeue_eq : (dequeue q memory).1 = (enqueued.drop dequeued.length).headD null
  dequeue_null : (dequeue q memory).1 = null ↔ dequeued.length = enqueued.length
  peek_eq : peek q memory = (dequeue q memory).1
  isEmpty_eq : isEmpty q memory = if dequeued.length = enqueued.length then 1 else 0
  ends : first q memory = null ↔ last q memory = null
  final : last q memory ≠ null →
    Visits (next memory) null (first q memory) (last q memory) ∧
      next memory (last q memory) = null

section

variable {q : ℕ} {s t : Pages} {a : QueuedMutex.Queue} {events : List Event}

theorem delivered_dequeue {x : ℕ} (hx : x ≠ null) : delivered [.dequeue x] = [x] := by
  simp [delivered, hx]

/-- What one call does to the elements that wait. -/
theorem Refines.step {event : Event} (h : Refines q s a) (hnull : null ∉ a.elems)
    (hstep : Step q s event t) : ∃ a', Refines q t a' ∧ null ∉ a'.elems ∧
      delivered [event] ++ a'.elems = a.elems ++ accepted [event] := by
  cases hstep with
  | enqueue hpage helem =>
    obtain ⟨href, helems⟩ := h.enqueue hpage
    refine ⟨_, href, ?_, helems⟩
    rw [helems, List.mem_append, List.mem_singleton, not_or]
    exact ⟨hnull, Ne.symm helem⟩
  | dequeue =>
    obtain ⟨a', hdequeue, htail, href⟩ := h.dequeue
    refine ⟨a', href, fun hmem => hnull (List.mem_of_mem_tail (htail ▸ hmem)), ?_⟩
    obtain ⟨elems, linked⟩ := a
    cases elems with
    | nil =>
      have hres : (LinkedQueue.dequeue q s.memory).1 = null := (congrArg Prod.fst hdequeue).symm
      rw [htail, hres]
      rfl
    | cons x elems =>
      have hres : (LinkedQueue.dequeue q s.memory).1 = x := (congrArg Prod.fst hdequeue).symm
      have hx : x ≠ null := fun hx => hnull (hx ▸ List.mem_cons_self)
      rw [htail, hres, delivered_dequeue hx]
      exact (List.append_nil _).symm
  | peek => exact ⟨a, h, hnull, (List.append_nil _).symm⟩
  | isEmpty => exact ⟨a, h, hnull, (List.append_nil _).symm⟩
  | others hsame => exact ⟨a, h.others hsame, hnull, (List.append_nil _).symm⟩

theorem accepted_cons (event : Event) (events : List Event) :
    accepted (event :: events) = accepted [event] ++ accepted events :=
  List.filterMap_append (l := [event])

theorem delivered_cons (event : Event) (events : List Event) :
    delivered (event :: events) = delivered [event] ++ delivered events :=
  List.filterMap_append (l := [event])

/-- What a run does to them. -/
theorem Refines.path (h : Refines q s a) (hnull : null ∉ a.elems)
    (hpath : (system q).Path s events t) : ∃ a', Refines q t a' ∧ null ∉ a'.elems ∧
      delivered events ++ a'.elems = a.elems ++ accepted events := by
  induction hpath generalizing a with
  | nil => exact ⟨a, h, hnull, (List.append_nil _).symm⟩
  | cons hstep _ ih =>
    obtain ⟨a₁, h₁, hnull₁, hstep⟩ := h.step hnull hstep
    obtain ⟨a', h', hnull', hpath⟩ := ih h₁ hnull₁
    refine ⟨a', h', hnull', ?_⟩
    rw [delivered_cons, accepted_cons, List.append_assoc, hpath, ← List.append_assoc, hstep,
      List.append_assoc]

theorem Refines.isFifo {enqueued dequeued : List ℕ} (h : Refines q s a) (hnull : null ∉ a.elems)
    (heq : dequeued ++ a.elems = enqueued) : IsFifo q s.memory enqueued dequeued := by
  have hdrop : enqueued.drop dequeued.length = a.elems := by
    rw [← heq, List.drop_left]
  have hlength : dequeued.length = enqueued.length ↔ a.elems = [] := by
    rw [← heq, List.length_append, Nat.left_eq_add, List.length_eq_zero_iff]
  have hres : (LinkedQueue.dequeue q s.memory).1 = a.elems.headD null := by
    obtain ⟨a', hdequeue, -⟩ := h.dequeue
    rw [← congrArg Prod.fst hdequeue]
    obtain ⟨elems, linked⟩ := a
    cases elems with
    | nil => rfl
    | cons x elems => rfl
  refine ⟨⟨a.elems, heq⟩, hdrop ▸ hres, ?_, h.peek.trans hres.symm, ?_, ?_, ?_⟩
  · rw [hres, hlength]
    cases helems : a.elems with
    | nil => exact iff_of_true rfl rfl
    | cons x elems =>
      refine iff_of_false (fun hx => hnull ?_) (List.cons_ne_nil x elems)
      rw [helems]
      exact List.mem_cons.mpr (Or.inl hx.symm)
  · rw [h.isEmpty]
    simp only [QueuedMutex.isEmpty, decide_eq_true_eq, hlength]
  · obtain ⟨nodes, hrep, -⟩ := h
    exact hrep.ends
  · obtain ⟨nodes, hrep, -⟩ := h
    exact hrep.final

/-- The linked queue is first in, first out. -/
theorem queue_isFifo (hs : (system q).init s) (hpath : (system q).Path s events t) :
    IsFifo q t.memory (accepted events) (delivered events) := by
  obtain ⟨hq, memory, rfl⟩ := hs
  obtain ⟨a, -, hnil, href⟩ := @refines_createQueue q memory hq
  obtain ⟨a', href', hnull, heq⟩ := href.path (hnil ▸ List.not_mem_nil) hpath
  rw [hnil, List.nil_append] at heq
  exact href'.isFifo hnull heq

theorem queue_isFifo_one :
    IsFifo 4096 (enqueue 4096 8192 7 (createQueue 4096 fun _ => 0).2) (accepted [.enqueue 7])
      (delivered [.enqueue 7]) :=
  queue_isFifo (s := ⟨(createQueue 4096 fun _ => 0).2, [4096]⟩) ⟨by decide, _, rfl⟩
    (System.Path.cons
      (@Step.enqueue 4096 _ 8192 7 ⟨by decide, by simp [Apart, wordSize]⟩ (by decide))
      (System.Path.nil _))

end

end GatOS.LinkedQueue
