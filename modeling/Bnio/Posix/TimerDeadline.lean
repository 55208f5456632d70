import Bnio.Posix.TimerState
import Bnio.Posix.Group

namespace Bnio.Posix

namespace Timers

variable {t t' : Timers} {s r : SlotId} {v : Slot} {op : OpId} {kind : CompletionKind} {now : Nat}

theorem heapDeadline_congr (hh : t'.heap = t.heap)
    (he : ∀ r ∈ t.heap.members, t'.expiry r = t.expiry r) : t'.heapDeadline = t.heapDeadline := by
  cases hf : t.heap.front?
  case none   => simp [heapDeadline, hh, hf]
  case some r => simp [heapDeadline, hh, hf, he r (PairingHeap.front_mem hf)]

-- Taking timers out of the heap never moves the deadline forward.
theorem heapDeadline_mono (hw : t.heap.WellFormed t.expiry) (hw' : t'.heap.WellFormed t'.expiry)
    (hm : ∀ r ∈ t'.heap.members, r ∈ t.heap.members ∧ t'.expiry r = t.expiry r) :
    t.heapDeadline ≤ t'.heapDeadline :=
  (le_heapDeadline_iff hw').mpr fun r hr =>
    (hm r hr).2 ▸ (le_heapDeadline_iff hw).mp le_rfl r (hm r hr).1

theorem erase_heap_subset (h : t.WellFormed) (hc : (t.slots s).context = some .this)
    (hr : r ∈ (t.erase s).heap.members) : r ∈ t.heap.members ∧ r ≠ s := by
  refine ⟨?_, ne_of_mem_of_not_mem hr (h.erase hc).not_mem_heap⟩
  unfold erase at hr
  split at hr
  case isTrue ha =>
    have hs := (h.slot s).heap.mpr ⟨hc, ha⟩
    simp only [eraseHeap, ha, Bool.not_true, Bool.false_eq_true, if_false] at hr
    exact (h.containers.heap.tree.erase_members t.expiry hs).mem_iff.mpr (List.mem_cons_of_mem _ hr)
  case isFalse ha =>
    simp only [eraseInactive, ha, Bool.false_eq_true, if_false] at hr
    exact hr

-- Nothing is staged, and the deadline does not move forward.
structure Quiet (t t' : Timers) : Prop where
  ready    : t'.ready = t.ready
  deadline : t.heapDeadline ≤ t'.heapDeadline

theorem Quiet.rfl : t.Quiet t :=
  ⟨.refl _, le_rfl⟩

theorem pushInactive_deadline : (t.pushInactive s).heapDeadline = t.heapDeadline := by
  unfold pushInactive
  split <;> rfl

theorem stageSubmitted_ready (h : (t.slots s).submitted = []) :
    (t.stageSubmitted s kind).ready = t.ready := by
  simp [stageSubmitted, enqueueTimerOperations, h]

theorem WellFormed.registerTimerLocked_quiet (h : t.WellFormed)
    (hq : (t.registerTimerLocked s now).2 = false) : t.Quiet (t.registerTimerLocked s now).1 := by
  by_cases hc : (t.slots s).context = none
  case neg => simpa [Timers.registerTimerLocked, hc] using Quiet.rfl
  case pos =>
    have hl := h.loose hc
    simp only [Timers.registerTimerLocked, hc, ne_eq, not_true_eq_false, if_false] at hq ⊢
    refine ⟨insert_ready, ?_⟩
    by_cases hn : (now : TimePoint) < t.expiry s
    case pos => simpa [hn] using hq
    case neg =>
      have he : ¬(now : TimePoint) <
          (t.setSlot s { t.slots s with context := some .this, submitted := [] }).expiry s := by
        simpa [expiry] using hn
      rw [insert, if_neg he, pushInactive_deadline]
      exact Eq.ge <| heapDeadline_congr (.refl _) fun _ => hl.expiry_setSlot

theorem WellFormed.unregisterTimerLocked_quiet (h : t.WellFormed)
    (hq : (t.unregisterTimerLocked s).2 = false) : t.Quiet (t.unregisterTimerLocked s).1 := by
  have hw := (h.unregisterTimerLocked (s := s)).containers.heap
  by_cases hc : (t.slots s).context = some .this
  case neg => simpa [Timers.unregisterTimerLocked, hc] using Quiet.rfl
  case pos =>
    simp only [Timers.unregisterTimerLocked, hc, ne_eq, not_true_eq_false, if_false] at hq hw ⊢
    have hs : (t.slots s).submitted = [] := by simpa using hq
    refine ⟨?_, heapDeadline_mono h.containers.heap hw fun r hr => ?_⟩
    · exact (stageSubmitted_ready (by simp [erase_slots, hs])).trans erase_ready
    · have ⟨hm, hr⟩ := erase_heap_subset h hc hr
      exact ⟨hm, by simp [expiry, hr, setSlot, erase_slots]⟩

theorem cancelTimerLocked_quiet
    (hq : (t.cancelTimerLocked s).2.2 = false) : t.Quiet (t.cancelTimerLocked s).1 := by
  by_cases hc : (t.slots s).context = some .this
  case neg => simpa [Timers.cancelTimerLocked, hc] using Quiet.rfl
  case pos =>
    simp only [Timers.cancelTimerLocked, hc, ne_eq, not_true_eq_false, if_false] at hq ⊢
    have hs : (t.slots s).submitted = [] := by simpa using hq
    refine ⟨stageSubmitted_ready hs, ?_⟩
    exact Eq.ge <| heapDeadline_congr (.refl _) fun _ _ => expiry_setSlot (.refl _)

theorem setTimerExpiryLocked_quiet {e : TimePoint}
    (hq : (t.setTimerExpiryLocked s e now).2.2 = false) :
    t.Quiet (t.setTimerExpiryLocked s e now).1 := by
  by_cases hc : (t.slots s).context = some .this
  case neg => simpa [Timers.setTimerExpiryLocked, hc] using Quiet.rfl
  case pos =>
    simp only [Timers.setTimerExpiryLocked, hc, ne_eq, not_true_eq_false, if_false] at hq ⊢
    have ⟨hs, hd⟩ := Bool.or_eq_false_iff.mp hq
    have hs : (t.slots s).submitted = [] := by simpa using hs
    refine ⟨?_, by simpa using hd⟩
    exact insert_ready.trans <| (stageSubmitted_ready (by simp [erase_slots, hs])).trans erase_ready

theorem startTimerWaitLocked_quiet (hq : (t.startTimerWaitLocked op s).2 = false) :
    t.Quiet (t.startTimerWaitLocked op s).1 := by
  unfold startTimerWaitLocked at hq ⊢
  by_cases hc : (t.slots s).context = some .this <;> cases ha : (t.slots s).active <;>
    simp [hc, ha] at hq ⊢
  exact ⟨.refl _, Eq.ge <| heapDeadline_congr (.refl _) fun _ _ => expiry_setSlot (.refl _)⟩

-- A fetch leaves nothing staged and returns the deadline of what stays in the heap.
theorem fetchTimeoutOperations_spec (t : Timers) (now : Nat) :
    (t.fetchTimeoutOperations now).1.ready = [] ∧
      (t.fetchTimeoutOperations now).2.1 = (t.fetchTimeoutOperations now).1.heapDeadline :=
  ⟨.refl _, .refl _⟩

end Timers

namespace TimerCall

variable {t : Timers} {c : TimerCall} {now : Nat}

theorem wellFormed_apply (h : t.WellFormed) : (c.apply t now).1.WellFormed := by
  cases c
  case register   => exact h.registerTimerLocked
  case unregister => exact h.unregisterTimerLocked
  case cancel     => exact h.cancelTimerLocked
  case setExpiry  => exact h.setTimerExpiryLocked
  case expiry     => exact h
  case startWait  => exact h.startTimerWaitLocked
  case complete   => exact h.enqueue

-- A call that wakes nobody has staged nothing and has not moved the deadline forward.
theorem quiet_apply (h : t.WellFormed) (hq : (c.apply t now).2 = false) :
    t.Quiet (c.apply t now).1 := by
  cases c
  case register   => exact h.registerTimerLocked_quiet hq
  case unregister => exact h.unregisterTimerLocked_quiet hq
  case cancel     => exact Timers.cancelTimerLocked_quiet hq
  case setExpiry  => exact Timers.setTimerExpiryLocked_quiet hq
  case expiry     => exact .rfl
  case startWait  => exact Timers.startTimerWaitLocked_quiet hq
  case complete   => cases hq

end TimerCall
end Bnio.Posix
