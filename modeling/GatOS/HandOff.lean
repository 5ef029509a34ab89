import Mathlib.Data.List.Nodup

/-!
# Locks that are handed over

Locks with queues: whoever finds a lock taken waits in its queue, and giving a lock back gives it
to the first of the queue. The rules say which processes are inside, that is, have asked for the
lock and not given it back. Nothing here refers to a particular system.
-/
namespace GatOS.HandOff

variable {K P : Type*}

/-- `inside` are the processes that hold or wait for a lock, `lock` the locks that are taken. -/
structure HandedOver (inside : K → P → Prop) (waiting : K → List P) (lock : K → Prop)
    (blocked : P → Prop) : Prop where
  single : ∀ k k' p, inside k p → inside k' p → k = k'
  queued : ∀ k, ∀ p ∈ waiting k, blocked p ∧ inside k p
  nodup : ∀ k, (waiting k).Nodup
  free : ∀ k p, ¬ lock k → inside k p → blocked p
  taken : ∀ k, lock k → ∃ p, inside k p ∧ ¬ blocked p
  alone : ∀ k p q, inside k p → inside k q → ¬ blocked p → ¬ blocked q → p = q

variable {inside inside' : K → P → Prop} {waiting waiting' : K → List P} {lock l : K → Prop}
  {blocked blocked' : P → Prop} {key : K} {c : P}

/-- The rules look at what is inside, waiting, taken and blocked only. -/
theorem HandedOver.congr (h : HandedOver inside waiting lock blocked)
    (hinside : ∀ k p, inside' k p ↔ inside k p) (hwaiting : ∀ k, waiting' k = waiting k)
    (hlock : ∀ k, l k ↔ lock k) (hblocked : ∀ p, blocked' p ↔ blocked p) :
    HandedOver inside' waiting' l blocked' := by
  obtain rfl : inside' = inside := by
    funext k p
    exact propext (hinside k p)
  obtain rfl : waiting' = waiting := funext hwaiting
  obtain rfl : l = lock := funext fun k => propext (hlock k)
  obtain rfl : blocked' = blocked := funext fun p => propext (hblocked p)
  exact h

/-- A process takes a free lock. -/
theorem HandedOver.enter_free (h : HandedOver inside waiting lock blocked)
    (hc : ∀ k, ¬ inside k c) (hrun : ¬ blocked c) (hfree : ¬ lock key)
    (hinside : ∀ k p, inside' k p ↔ inside k p ∨ (k = key ∧ p = c))
    (hlock : ∀ k, l k ↔ lock k ∨ k = key) :
    HandedOver inside' waiting l blocked := by
  refine ⟨fun k k' p hp hp' => ?_, fun k p hp => ?_, h.nodup, fun k p hk hp => ?_, fun k hk => ?_,
    fun k p q hp hq hbp hbq => ?_⟩
  · rcases (hinside k p).mp hp with hp | ⟨rfl, rfl⟩
    · rcases (hinside k' p).mp hp' with hp' | ⟨rfl, rfl⟩
      · exact h.single k k' p hp hp'
      · exact absurd hp (hc k)
    · rcases (hinside k' p).mp hp' with hp' | ⟨rfl, -⟩
      · exact absurd hp' (hc k')
      · rfl
  · obtain ⟨hb, hin⟩ := h.queued k p hp
    exact ⟨hb, (hinside k p).mpr (Or.inl hin)⟩
  · have hold : ¬ lock k ∧ k ≠ key := by simpa [hlock] using hk
    rcases (hinside k p).mp hp with hp | ⟨rfl, -⟩
    · exact h.free k p hold.1 hp
    · exact absurd rfl hold.2
  · rcases (hlock k).mp hk with hk | rfl
    · obtain ⟨p, hp, hb⟩ := h.taken k hk
      exact ⟨p, (hinside k p).mpr (Or.inl hp), hb⟩
    · exact ⟨c, (hinside k c).mpr (Or.inr ⟨rfl, rfl⟩), hrun⟩
  · rcases (hinside k p).mp hp with hp | ⟨rfl, rfl⟩
    · rcases (hinside k q).mp hq with hq | ⟨rfl, rfl⟩
      · exact h.alone k p q hp hq hbp hbq
      · exact absurd (h.free k p hfree hp) hbp
    · rcases (hinside k q).mp hq with hq | ⟨-, rfl⟩
      · exact absurd (h.free k q hfree hq) hbq
      · rfl

/-- A process finds the lock taken. It may get no place in the queue. -/
theorem HandedOver.enter_taken (h : HandedOver inside waiting lock blocked)
    (hc : ∀ k, ¬ inside k c) (hrun : ¬ blocked c) (htaken : lock key)
    (hinside : ∀ k p, inside' k p ↔ inside k p ∨ (k = key ∧ p = c))
    (hwaiting : waiting' key = waiting key ∨ waiting' key = waiting key ++ [c])
    (hother : ∀ k, k ≠ key → waiting' k = waiting k)
    (hblocked : ∀ p, blocked' p ↔ p = c ∨ blocked p) :
    HandedOver inside' waiting' lock blocked' := by
  have hnot : ∀ k, c ∉ waiting k := fun k hmem => hrun (h.queued k c hmem).1
  have hold : ∀ k p, inside' k p → ¬ blocked' p → inside k p ∧ ¬ blocked p := by
    intro k p hp hb
    have hb' : p ≠ c ∧ ¬ blocked p := by simpa [hblocked] using hb
    rcases (hinside k p).mp hp with hp | ⟨-, rfl⟩
    · exact ⟨hp, hb'.2⟩
    · exact absurd rfl hb'.1
  have hkey : ∀ k, waiting' k = waiting k ∨ (k = key ∧ waiting' k = waiting k ++ [c]) := by
    intro k
    by_cases hk : k = key
    · subst hk
      exact hwaiting.imp_right fun hw => ⟨rfl, hw⟩
    · exact Or.inl (hother k hk)
  refine ⟨fun k k' p hp hp' => ?_, fun k p hp => ?_, fun k => ?_, fun k p hk hp => ?_,
    fun k hk => ?_, fun k p q hp hq hbp hbq => ?_⟩
  · rcases (hinside k p).mp hp with hp | ⟨rfl, rfl⟩
    · rcases (hinside k' p).mp hp' with hp' | ⟨-, rfl⟩
      · exact h.single k k' p hp hp'
      · exact absurd hp (hc k)
    · rcases (hinside k' p).mp hp' with hp' | ⟨rfl, -⟩
      · exact absurd hp' (hc k')
      · rfl
  · have hmem : p ∈ waiting k ∨ (k = key ∧ p = c) := by
      rcases hkey k with hw | ⟨rfl, hw⟩
      · exact Or.inl (hw ▸ hp)
      · rw [hw] at hp
        simpa using hp
    rcases hmem with hmem | ⟨rfl, rfl⟩
    · obtain ⟨hb, hin⟩ := h.queued k p hmem
      exact ⟨(hblocked p).mpr (Or.inr hb), (hinside k p).mpr (Or.inl hin)⟩
    · exact ⟨(hblocked p).mpr (Or.inl rfl), (hinside k p).mpr (Or.inr ⟨rfl, rfl⟩)⟩
  · rcases hkey k with hw | ⟨-, hw⟩
    · rw [hw]
      exact h.nodup k
    · rw [hw, List.nodup_append_comm]
      exact List.nodup_cons.mpr ⟨hnot k, h.nodup k⟩
  · rcases (hinside k p).mp hp with hp | ⟨rfl, -⟩
    · exact (hblocked p).mpr (Or.inr (h.free k p hk hp))
    · exact absurd htaken hk
  · obtain ⟨p, hp, hb⟩ := h.taken k hk
    have hpc : p ≠ c := fun he => hc k (he ▸ hp)
    exact ⟨p, (hinside k p).mpr (Or.inl hp), by simp [hblocked, hpc, hb]⟩
  · obtain ⟨hp, hbp⟩ := hold k p hp hbp
    obtain ⟨hq, hbq⟩ := hold k q hq hbq
    exact h.alone k p q hp hq hbp hbq

/-- The holder gives back a lock that nobody waits for. -/
theorem HandedOver.leave_free (h : HandedOver inside waiting lock blocked) (hc : inside key c)
    (hrun : ¬ blocked c) (hinside : ∀ k p, inside' k p ↔ inside k p ∧ p ≠ c)
    (hlock : ∀ k, l k ↔ lock k ∧ k ≠ key) : HandedOver inside' waiting l blocked := by
  have hold : ∀ k p, inside' k p → inside k p ∧ p ≠ c := fun k p hp => (hinside k p).mp hp
  refine ⟨fun k k' p hp hp' => h.single k k' p (hold k p hp).1 (hold k' p hp').1, fun k p hp => ?_,
    h.nodup, fun k p hk hp => ?_, fun k hk => ?_,
    fun k p q hp hq => h.alone k p q (hold k p hp).1 (hold k q hq).1⟩
  · obtain ⟨hb, hin⟩ := h.queued k p hp
    exact ⟨hb, (hinside k p).mpr ⟨hin, fun he => hrun (he ▸ hb)⟩⟩
  · obtain ⟨hp, hpc⟩ := hold k p hp
    by_cases hkey : k = key
    · subst hkey
      by_contra hb
      exact hpc (h.alone k p c hp hc hb hrun)
    · refine h.free k p (fun htaken => hk ?_) hp
      exact (hlock k).mpr ⟨htaken, hkey⟩
  · obtain ⟨hk, hkey⟩ := (hlock k).mp hk
    obtain ⟨p, hp, hb⟩ := h.taken k hk
    refine ⟨p, (hinside k p).mpr ⟨hp, ?_⟩, hb⟩
    rintro rfl
    exact hkey (h.single k key p hp hc)

/-- The holder hands the lock over to the first of the queue. -/
theorem HandedOver.leave_handOff (h : HandedOver inside waiting lock blocked) (hc : inside key c)
    (hrun : ¬ blocked c) {q : P} {rest : List P} (hq : waiting key = q :: rest)
    (hinside : ∀ k p, inside' k p ↔ inside k p ∧ p ≠ c) (hwaiting : waiting' key = rest)
    (hother : ∀ k, k ≠ key → waiting' k = waiting k)
    (hblocked : ∀ p, blocked' p ↔ blocked p ∧ p ≠ q) :
    HandedOver inside' waiting' lock blocked' := by
  obtain ⟨hbq, hinq⟩ := h.queued key q (by simp [hq])
  have hqc : q ≠ c := fun he => hrun (he ▸ hbq)
  have hnodup := h.nodup key
  rw [hq, List.nodup_cons] at hnodup
  have hold : ∀ k p, inside' k p → inside k p ∧ p ≠ c := fun k p hp => (hinside k p).mp hp
  -- the one that can go on is the new holder
  have hunique : ∀ p, inside' key p → ¬ blocked' p → p = q := by
    intro p hp hb
    obtain ⟨hp, hpc⟩ := hold key p hp
    by_contra hpq
    have hb' : ¬ blocked p := fun hb' => hb ((hblocked p).mpr ⟨hb', hpq⟩)
    exact hpc (h.alone key p c hp hc hb' hrun)
  have hsame : ∀ k p, k ≠ key → inside k p → (blocked' p ↔ blocked p) := by
    intro k p hk hp
    have hpq : p ≠ q := fun he => hk (h.single k key p hp (he ▸ hinq))
    simp [hblocked, hpq]
  refine ⟨fun k k' p hp hp' => h.single k k' p (hold k p hp).1 (hold k' p hp').1, fun k p hp => ?_,
    fun k => ?_, fun k p hk hp => ?_, fun k hk => ?_, fun k p r hp hr hbp hbr => ?_⟩
  · by_cases hk : k = key
    · subst hk
      rw [hwaiting] at hp
      obtain ⟨hb, hin⟩ := h.queued k p (by simp [hq, hp])
      have hpq : p ≠ q := fun he => hnodup.1 (he ▸ hp)
      exact ⟨(hblocked p).mpr ⟨hb, hpq⟩, (hinside k p).mpr ⟨hin, fun he => hrun (he ▸ hb)⟩⟩
    · rw [hother k hk] at hp
      obtain ⟨hb, hin⟩ := h.queued k p hp
      exact ⟨(hsame k p hk hin).mpr hb, (hinside k p).mpr ⟨hin, fun he => hrun (he ▸ hb)⟩⟩
  · by_cases hk : k = key
    · subst hk
      rw [hwaiting]
      exact hnodup.2
    · rw [hother k hk]
      exact h.nodup k
  · obtain ⟨hp, -⟩ := hold k p hp
    have hkey : k ≠ key := by
      rintro rfl
      exact hrun (h.free k c hk hc)
    exact (hsame k p hkey hp).mpr (h.free k p hk hp)
  · by_cases hkey : k = key
    · subst hkey
      exact ⟨q, (hinside k q).mpr ⟨hinq, hqc⟩, by simp [hblocked]⟩
    · obtain ⟨p, hp, hb⟩ := h.taken k hk
      have hpc : p ≠ c := by
        rintro rfl
        exact hkey (h.single k key p hp hc)
      exact ⟨p, (hinside k p).mpr ⟨hp, hpc⟩, fun hb' => hb ((hsame k p hkey hp).mp hb')⟩
  · by_cases hkey : k = key
    · subst hkey
      exact (hunique p hp hbp).trans (hunique r hr hbr).symm
    · obtain ⟨hp, -⟩ := hold k p hp
      obtain ⟨hr, -⟩ := hold k r hr
      exact h.alone k p r hp hr (fun hb => hbp ((hsame k p hkey hp).mpr hb))
        fun hb => hbr ((hsame k r hkey hr).mpr hb)

end GatOS.HandOff
