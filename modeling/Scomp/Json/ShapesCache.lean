/-
What the repository's cache holds. `_jsr_complete_current_shape` never stores
a shape through the handles of the queue, so all the cache holds is NULL and
no eviction ever returns: a run that goes on has not evicted anything. The
handles in the shapes stay live.
-/
import Scomp.Json.ShapesRepository
import Scomp.DataStructures.LmQueuePolicy

namespace Scomp

/-! ## A queue that nothing is stored in -/

section

variable {α : Type} {matureSize now : Nat} {items items' : Multiset (LmItem α)} {entry entry' : LmEntry}

theorem LmStep.push_items (h : LmStep matureSize now items .push (.handle entry) items') :
    items' = { entry := entry, value := none, pushedAt := now, bumpedAt := none } ::ₘ items := by
  cases h
  rfl

theorem LmStep.bump_items (h : LmStep matureSize now items (.bump entry) (.handle entry') items') :
    ∃ item rest, items = item ::ₘ rest ∧ item.entry = entry ∧
      items' = { item with entry := entry', bumpedAt := some now } ::ₘ rest := by
  cases h
  exact ⟨_, _, rfl, rfl, rfl⟩

theorem LmStep.pop_items {value : Option α} (h : LmStep matureSize now items .pop (.popped value) items') :
    ∃ item ∈ items, item.value = value := by
  cases h
  exact ⟨_, Multiset.mem_cons_self _ _, rfl⟩

variable {q q' : LmQueue α}

/-- All values in the queue are NULL. -/
def LmNulls (q : LmQueue α) : Prop :=
  ∃ (freshSize matureSize now : Nat) (fresh mature : List (LmItem α)),
    LmInv freshSize matureSize now q fresh mature ∧ ∀ item ∈ fresh ++ mature, item.value = none

theorem LmNulls.init (freshStale matureStale : Nat → FalEntry α) (freshSize matureSize : Nat) :
    LmNulls (lmQueueInit freshStale matureStale freshSize matureSize) :=
  ⟨freshSize, matureSize, 0, [], [], .init _ _ _ _, by simp⟩

theorem LmNulls.nodup (h : LmNulls q) : (lmQueueLiveEntries q).Nodup := by
  obtain ⟨_, _, _, _, _, hinv, -⟩ := h
  exact hinv.held.nodup

theorem LmNulls.push (h : LmNulls q) (hpush : lmQueuePush q = some (entry, q')) :
    LmNulls q' ∧ (lmQueueLiveEntries q' : Multiset LmEntry) = entry ::ₘ ↑(lmQueueLiveEntries q) := by
  obtain ⟨freshSize, matureSize, now, fresh, mature, hinv, hnull⟩ := h
  have hallowed : LmAllowed q .push := by
    by_contra hover
    simp [LmAllowed] at hover
    simp [lmQueuePush, hover] at hpush
  obtain ⟨fresh', mature', hstep, hinv'⟩ := hinv.step hallowed
    (show lmApply q .push = some (.handle entry, q') by simp [lmApply, hpush])
  have hitems := hstep.push_items
  refine ⟨⟨freshSize, matureSize, now + 1, fresh', mature', hinv', fun item hitem => ?_⟩, ?_⟩
  · rw [← Multiset.mem_coe, hitems, Multiset.mem_cons] at hitem
    rcases hitem with rfl | hold
    · rfl
    · exact hnull item hold
  · rw [← hinv'.held.entries, hitems, Multiset.map_cons, hinv.held.entries]

theorem LmNulls.bump (h : LmNulls q) (hlive : entry ∈ lmQueueLiveEntries q)
    (hbump : lmQueueBump q entry = some (entry', q')) :
    LmNulls q' ∧ ∃ rest, (lmQueueLiveEntries q : Multiset LmEntry) = entry ::ₘ rest ∧
      (lmQueueLiveEntries q' : Multiset LmEntry) = entry' ::ₘ rest := by
  obtain ⟨freshSize, matureSize, now, fresh, mature, hinv, hnull⟩ := h
  have hallowed : LmAllowed q (.bump entry) := by
    refine ⟨?_, hlive⟩
    by_contra hover
    simp at hover
    simp [lmQueueBump, hover] at hbump
  obtain ⟨fresh', mature', hstep, hinv'⟩ := hinv.step hallowed
    (show lmApply q (.bump entry) = some (.handle entry', q') by simp [lmApply, hbump])
  obtain ⟨item, rest, hitems, hentry, hitems'⟩ := hstep.bump_items
  have hnull' : ∀ other ∈ item ::ₘ rest, other.value = none := by
    intro other hother
    rw [← hitems] at hother
    exact hnull other hother
  refine ⟨⟨freshSize, matureSize, now + 1, fresh', mature', hinv', fun other hother => ?_⟩,
    rest.map LmItem.entry, ?_, ?_⟩
  · rw [← Multiset.mem_coe, hitems', Multiset.mem_cons] at hother
    rcases hother with rfl | hold
    · exact hnull' item (Multiset.mem_cons_self item rest)
    · exact hnull' other (Multiset.mem_cons_of_mem hold)
  · rw [← hinv.held.entries, hitems, Multiset.map_cons, hentry]
  · rw [← hinv'.held.entries, hitems', Multiset.map_cons]

theorem LmNulls.pop {value : Option α} (h : LmNulls q) (hpop : lmQueuePop q = some (value, q')) : value = none := by
  obtain ⟨freshSize, matureSize, now, fresh, mature, hinv, hnull⟩ := h
  have hallowed : LmAllowed q .pop := by
    by_contra hover
    simp [LmAllowed] at hover
    simp [lmQueuePop, hover] at hpop
  obtain ⟨fresh', mature', hstep, -⟩ := hinv.step hallowed
    (show lmApply q .pop = some (.popped value, q') by simp [lmApply, hpop])
  obtain ⟨item, hitem, rfl⟩ := hstep.pop_items
  exact hnull item hitem

end

/-! ## The cache of the repository -/

/-- **Nothing is evicted**: where an eviction is due, NULL is followed. -/
theorem jsrDrainCacheOverflow_eq {repo repo' : JsonShapesRepository} (h : LmNulls repo.cacheController)
    (hrun : jsrDrainCacheOverflow repo = some repo') : repo' = repo := by
  rw [jsrDrainCacheOverflow] at hrun
  split at hrun
  · simp only [Option.bind_eq_bind, Option.bind_eq_some_iff] at hrun
    obtain ⟨⟨value, cache⟩, hpop, slot, hvalue, -⟩ := hrun
    rw [h.pop hpop] at hvalue
    cases hvalue
  · exact (Option.some.inj hrun).symm

/-- The handles in the shapes are live, and no two shapes have the same. -/
structure JsrCache (data : Nat → JsonObjectShape) (cache : LmQueue Nat) : Prop where
  nulls : LmNulls cache
  live : ∀ slot entry, (data slot).cacheEntry = some entry → entry ∈ lmQueueLiveEntries cache
  distinct : ∀ slot slot' entry, (data slot).cacheEntry = some entry → (data slot').cacheEntry = some entry →
    slot = slot'

section

variable {data data' : Nat → JsonObjectShape} {cache cache' : LmQueue Nat} {slot : Nat} {entry entry' : LmEntry}

theorem JsrCache.init (data : Nat → JsonObjectShape) (freshStale matureStale : Nat → FalEntry Nat)
    (freshSize matureSize : Nat) (huncached : ∀ slot, (data slot).cacheEntry = none) :
    JsrCache data (lmQueueInit freshStale matureStale freshSize matureSize) :=
  ⟨.init _ _ _ _, by simp [huncached], by simp [huncached]⟩

/-- Shapes that get no new handle. -/
theorem JsrCache.congr (h : JsrCache data cache)
    (hsame : ∀ slot entry, (data' slot).cacheEntry = some entry → (data slot).cacheEntry = some entry) :
    JsrCache data' cache :=
  ⟨h.nulls, fun slot entry he => h.live slot entry (hsame slot entry he), fun slot slot' entry he he' =>
    h.distinct slot slot' entry (hsame slot entry he) (hsame slot' entry he')⟩

/-- A shape gets a handle that no other one has. -/
theorem JsrCache.update (hnulls : LmNulls cache') (hentry : entry ∈ lmQueueLiveEntries cache')
    (h : JsrCache data cache) (shape : JsonObjectShape) (hshape : shape.cacheEntry = some entry)
    (hothers : ∀ other entry', other ≠ slot → (data other).cacheEntry = some entry' →
      entry' ∈ lmQueueLiveEntries cache' ∧ entry' ≠ entry) :
    JsrCache (Function.update data slot shape) cache' := by
  refine ⟨hnulls, fun other entry' he => ?_, fun other other' entry' he he' => ?_⟩
  · by_cases hother : other = slot
    · subst hother
      rw [Function.update_self, hshape] at he
      exact Option.some.inj he ▸ hentry
    · rw [Function.update_of_ne hother] at he
      exact (hothers other entry' hother he).1
  · by_cases hother : other = slot
    · subst hother
      rw [Function.update_self, hshape] at he
      cases he
      by_contra hne
      rw [Function.update_of_ne (Ne.symm hne)] at he'
      exact (hothers other' entry (Ne.symm hne) he').2 rfl
    · rw [Function.update_of_ne hother] at he
      by_cases hother' : other' = slot
      · subst hother'
        rw [Function.update_self, hshape] at he'
        cases he'
        exact absurd rfl (hothers other entry hother he).2
      · rw [Function.update_of_ne hother'] at he'
        exact h.distinct other other' entry' he he'

theorem JsrCache.push (h : JsrCache data cache) (hpush : lmQueuePush cache = some (entry, cache'))
    {shape : JsonObjectShape} (hshape : shape.cacheEntry = some entry) :
    JsrCache (Function.update data slot shape) cache' := by
  obtain ⟨hnulls, hlive⟩ := h.nulls.push hpush
  have hmem : ∀ other, other ∈ lmQueueLiveEntries cache' ↔ other = entry ∨ other ∈ lmQueueLiveEntries cache := by
    intro other
    rw [← Multiset.mem_coe, hlive, Multiset.mem_cons, Multiset.mem_coe]
  have hnew : entry ∉ lmQueueLiveEntries cache := by
    have hnodup := Multiset.coe_nodup.2 hnulls.nodup
    rw [hlive] at hnodup
    exact (Multiset.nodup_cons.1 hnodup).1
  refine h.update hnulls ((hmem entry).2 (.inl rfl)) shape hshape fun other entry' _ he => ?_
  have hold := h.live other entry' he
  exact ⟨(hmem entry').2 (.inr hold), fun heq => hnew (heq ▸ hold)⟩

theorem JsrCache.bump (h : JsrCache data cache) (hslot : (data slot).cacheEntry = some entry)
    (hbump : lmQueueBump cache entry = some (entry', cache')) {shape : JsonObjectShape}
    (hshape : shape.cacheEntry = some entry') : JsrCache (Function.update data slot shape) cache' := by
  obtain ⟨hnulls, rest, hlive, hlive'⟩ := h.nulls.bump (h.live slot entry hslot) hbump
  have hmem : ∀ other, other ∈ lmQueueLiveEntries cache' ↔ other = entry' ∨ other ∈ rest := by
    intro other
    rw [← Multiset.mem_coe, hlive', Multiset.mem_cons]
  have hnew : entry' ∉ rest := by
    have hnodup := Multiset.coe_nodup.2 hnulls.nodup
    rw [hlive'] at hnodup
    exact (Multiset.nodup_cons.1 hnodup).1
  refine h.update hnulls ((hmem entry').2 (.inl rfl)) shape hshape fun other otherEntry hne he => ?_
  have hrest : otherEntry ∈ rest := by
    have hold := h.live other otherEntry he
    rw [← Multiset.mem_coe, hlive, Multiset.mem_cons] at hold
    rcases hold with rfl | hrest
    · exact absurd (h.distinct other slot otherEntry he hslot) hne
    · exact hrest
  exact ⟨(hmem otherEntry).2 (.inr hrest), fun heq => hnew (heq ▸ hrest)⟩

end

end Scomp
