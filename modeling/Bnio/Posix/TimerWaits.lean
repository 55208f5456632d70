import Bnio.Posix.TimerState

namespace Bnio.Posix.Timers

variable {t : Timers} {s r : SlotId} {v : Slot} {op : OpId} {kind : CompletionKind} {now : Nat}

-- The waits `timers_.mutex` guards.
def waits (t : Timers) : List OpId :=
  t.heap.members.flatMap (fun s => (t.slots s).submitted) ++ t.ready.map Staged.op

theorem enqueueTimerOperations_ready {ops : List OpId} :
    (t.enqueueTimerOperations ops kind).ready = (ops.map (Staged.mk · kind)).reverse ++ t.ready := by
  simp [enqueueTimerOperations]

theorem waits_enqueue (t : Timers) (ops : List OpId) (kind : CompletionKind) :
    (t.enqueueTimerOperations ops kind).waits.Perm (t.waits ++ ops) := by
  have hr : ((t.enqueueTimerOperations ops kind).ready.map Staged.op).Perm
      (t.ready.map Staged.op ++ ops) := by
    simp only [enqueueTimerOperations_ready, List.map_append, List.map_reverse, List.map_map,
      Function.comp_def, List.map_id']
    exact ((List.reverse_perm _).append_right _).trans List.perm_append_comm
  rw [waits, waits, List.append_assoc]
  exact hr.append_left _

theorem waits_setSlot (hs : s ∉ t.heap.members) : (t.setSlot s v).waits = t.waits := by
  have h : ∀ r ∈ t.heap.members, ((t.setSlot s v).slots r).submitted = (t.slots r).submitted :=
    fun r hr => congrArg Slot.submitted <| setSlot_of_ne (ne_of_mem_of_not_mem hr hs)
  simp only [waits, setSlot_heap, setSlot_ready, List.flatMap_congr h]

-- Replacing a slot in the heap exchanges what it has submitted.
theorem waits_setSlot_of_mem (hn : t.heap.members.Nodup) (hs : s ∈ t.heap.members) :
    ((t.setSlot s v).waits ++ (t.slots s).submitted).Perm (t.waits ++ v.submitted) := by
  have hp := List.perm_cons_erase hs
  have hr : ∀ r ∈ t.heap.members.erase s,
      ((t.setSlot s v).slots r).submitted = (t.slots r).submitted := fun r hr =>
    congrArg Slot.submitted <| setSlot_of_ne (ne_of_mem_of_not_mem hr hn.not_mem_erase)
  have hv := (hp.flatMap_right fun r => ((t.setSlot s v).slots r).submitted)
  have ht := (hp.flatMap_right fun r => (t.slots r).submitted)
  simp only [List.flatMap_cons, setSlot_self, List.flatMap_congr hr] at hv ht
  simp only [List.perm_iff_count] at hv ht ⊢
  intro op
  have hv := hv op
  have ht := ht op
  simp only [waits, setSlot_heap, setSlot_ready, List.count_append] at hv ht ⊢
  omega

namespace Loose

theorem waits_stageSubmitted (h : t.Loose s) :
    (t.stageSubmitted s kind).waits.Perm (t.waits ++ (t.slots s).submitted) := by
  have hw := waits_enqueue (t.setSlot s { t.slots s with submitted := [] }) (t.slots s).submitted kind
  rwa [waits_setSlot h.not_mem_heap] at hw

theorem waits_insert (h : t.Loose s) (hs : (t.slots s).submitted = []) :
    (t.insert s now).waits.Perm t.waits := by
  unfold Timers.insert
  split
  case isTrue =>
    simp only [Timers.pushHeap, h.not_active, Bool.false_eq_true, if_false]
    generalize ht : t.setSlot s { t.slots s with active := true } = t'
    have hw : t'.heap.WellFormed t'.expiry :=
      ht ▸ h.containers.heap.congr fun _ hr => h.expiry_setSlot hr
    have he : t'.waits = t.waits := ht ▸ waits_setSlot h.not_mem_heap
    have hs' : (t'.slots s).submitted = [] := by simp [← ht, hs]
    refine ((hw.push_members.flatMap_right _).append_right _).trans ?_
    simp only [List.flatMap_cons, hs', List.nil_append, ← he]
    exact .refl _
  case isFalse =>
    simp only [Timers.pushInactive, h.not_active, h.not_mem_inactive, decide_false, Bool.or_false,
      Bool.false_eq_true, if_false]
    exact .refl _

end Loose

namespace WellFormed

theorem waits_eraseHeap (h : t.WellFormed) (hs : s ∈ t.heap.members) :
    t.waits.Perm ((t.eraseHeap s).waits ++ (t.slots s).submitted) := by
  have hm := h.containers.heap.tree.erase_members t.expiry hs
  have hn := (List.nodup_cons.mp (hm.nodup_iff.mp h.containers.nodup)).1
  have he : (t.eraseHeap s).waits = { t with heap := t.heap.erase t.expiry s }.waits := by
    simp only [Timers.eraseHeap, (h.of_mem_heap hs).2, Bool.not_true, Bool.false_eq_true, if_false]
    exact waits_setSlot hn
  rw [he]
  refine ((hm.flatMap_right _).append_right _).trans ?_
  simp only [waits, List.flatMap_cons, List.append_assoc]
  exact List.perm_append_comm.trans (by simp)

theorem waits_erase (h : t.WellFormed) (hc : (t.slots s).context = some .this) :
    t.waits.Perm ((t.erase s).waits ++ (t.slots s).submitted) := by
  unfold Timers.erase
  split
  case isTrue ha  => exact h.waits_eraseHeap ((h.slot s).heap.mpr ⟨hc, ha⟩)
  case isFalse ha =>
    have ha : (t.slots s).active = false := by simpa using ha
    simp only [Timers.eraseInactive, ha, (h.slot s).submitted (by simp [hc]) ha, List.append_nil,
      Bool.false_eq_true, if_false]
    exact .refl _

theorem waits_stageSubmitted (h : t.WellFormed) (hc : (t.slots s).context = some .this) :
    (t.stageSubmitted s kind).waits.Perm t.waits := by
  cases ha : (t.slots s).active
  case true =>
    have hs := waits_setSlot_of_mem (v := { t.slots s with submitted := [] }) h.containers.nodup
      ((h.slot s).heap.mpr ⟨hc, ha⟩)
    exact (waits_enqueue ..).trans <| hs.trans (by simp)
  case false =>
    have hs := (h.slot s).submitted (by simp [hc]) ha
    have hn : s ∉ t.heap.members := by simp [(h.slot s).heap, ha]
    refine (waits_enqueue ..).trans ?_
    rw [waits_setSlot hn, hs, List.append_nil]

-- What taking a slot out of its container and staging its waits does.
theorem waits_erase_stage (h : t.WellFormed) (hc : (t.slots s).context = some .this)
    (hv : v.active = false) (hs : v.submitted = (t.slots s).submitted) :
    (((t.erase s).setSlot s v).stageSubmitted s kind).waits.Perm t.waits := by
  have hl := h.erase hc
  refine (hl.setSlot hv).waits_stageSubmitted.trans ?_
  rw [waits_setSlot hl.not_mem_heap, setSlot_self, hs]
  exact (h.waits_erase hc).symm

theorem waits_registerTimerLocked (h : t.WellFormed) :
    (t.registerTimerLocked s now).1.waits.Perm t.waits := by
  unfold Timers.registerTimerLocked
  split
  case isTrue     => exact .refl _
  case isFalse hc =>
    have hl := h.loose (not_not.mp hc)
    refine (Loose.waits_insert (hl.setSlot ?_) (by simp)).trans ?_
    · exact hl.not_active
    · exact .of_eq (waits_setSlot hl.not_mem_heap)

theorem waits_unregisterTimerLocked (h : t.WellFormed) :
    (t.unregisterTimerLocked s).1.waits.Perm t.waits := by
  unfold Timers.unregisterTimerLocked
  split
  case isTrue     => exact .refl _
  case isFalse hc =>
    exact h.waits_erase_stage (not_not.mp hc) (by simp [erase_slots]) (by simp [erase_slots])

theorem waits_cancelTimerLocked (h : t.WellFormed) :
    (t.cancelTimerLocked s).1.waits.Perm t.waits := by
  unfold Timers.cancelTimerLocked
  split
  case isTrue     => exact .refl _
  case isFalse hc => exact h.waits_stageSubmitted (not_not.mp hc)

theorem waits_setTimerExpiryLocked {e : TimePoint} (h : t.WellFormed) :
    (t.setTimerExpiryLocked s e now).1.waits.Perm t.waits := by
  unfold Timers.setTimerExpiryLocked
  split
  case isTrue     => exact .refl _
  case isFalse hc =>
    have hl := h.erase (not_not.mp hc)
    refine (Loose.waits_insert (Loose.stageSubmitted (hl.setSlot ?_)) (by simp)).trans ?_
    · exact hl.not_active
    · exact h.waits_erase_stage (not_not.mp hc) (by simp [erase_slots]) (by simp [erase_slots])

theorem waits_startTimerWaitLocked (h : t.WellFormed) :
    (t.startTimerWaitLocked op s).1.waits.Perm (op :: t.waits) := by
  have hq {kind} : (t.enqueueTimerOperations [op] kind).waits.Perm (op :: t.waits) :=
    (waits_enqueue ..).trans List.perm_append_comm
  unfold Timers.startTimerWaitLocked
  split
  case isTrue     => exact hq
  case isFalse hc =>
    split
    case isTrue     => exact hq
    case isFalse ha =>
      have ha : (t.slots s).active := by simpa using ha
      have hs := waits_setSlot_of_mem
        (v := { t.slots s with submitted := op :: (t.slots s).submitted }) h.containers.nodup
        ((h.slot s).heap.mpr ⟨not_not.mp hc, ha⟩)
      exact List.perm_append_right_iff _ |>.mp <| hs.trans List.perm_middle

theorem waits_expire (h : t.WellFormed) (hs : s ∈ t.heap.members) :
    (t.expire s).waits.Perm t.waits := by
  have hl : ((t.eraseHeap s).stageSubmitted s .value).Loose s := (h.eraseHeap hs).stageSubmitted
  have he : (t.expire s).waits = ((t.eraseHeap s).stageSubmitted s .value).waits := by
    simp only [Timers.expire, Timers.pushInactive, hl.not_active, hl.not_mem_inactive, decide_false,
      Bool.or_false, Bool.false_eq_true, if_false]
    rfl
  rw [he]
  refine (h.eraseHeap hs).waits_stageSubmitted.trans ?_
  simpa [eraseHeap_slots] using (h.waits_eraseHeap hs).symm

theorem waits_drainExpired (now rounds : Nat) (h : t.WellFormed) :
    (Timers.drainExpired now rounds t).waits.Perm t.waits := by
  induction rounds generalizing t
  case zero           => exact .refl _
  case succ rounds hi =>
    unfold Timers.drainExpired
    split
    case h_2      => exact .refl _
    case h_1 s hs =>
      have hs := PairingHeap.front_mem hs
      split
      · exact (hi (h.expire hs)).trans (h.waits_expire hs)
      · exact .refl _

-- A fetch hands out waits and loses none.
theorem waits_fetchTimeoutOperations (now : Nat) (h : t.WellFormed) :
    t.waits.Perm ((t.fetchTimeoutOperations now).1.waits ++
      (t.fetchTimeoutOperations now).2.2.map Staged.op) := by
  refine (h.waits_drainExpired now t.heap.members.length).symm.trans ?_
  simp only [waits, Timers.fetchTimeoutOperations, List.map_nil, List.append_nil, List.map_reverse]
  exact .append_left _ (List.reverse_perm _).symm

theorem waits_releaseSlot (h : t.WellFormed) (hc : (t.slots s).context = some .this) :
    (t.releaseSlot true s).waits.Perm t.waits := by
  have hl := h.erase hc
  refine (waits_enqueue ..).trans ?_
  rw [waits_setSlot hl.not_mem_heap]
  exact (h.waits_erase hc).symm

theorem waits_emptyHeap {rounds : Nat} (h : t.WellFormed) :
    (Timers.emptyHeap true rounds t).waits.Perm t.waits := by
  induction rounds generalizing t
  case zero           => exact .refl _
  case succ rounds hi =>
    unfold Timers.emptyHeap
    split
    case h_2      => exact .refl _
    case h_1 s hs =>
      have hc := (h.of_mem_heap (PairingHeap.front_mem hs)).1
      exact (hi (h.releaseSlot hc)).trans (h.waits_releaseSlot hc)

theorem waits_emptyInactive {rounds : Nat} (h : t.WellFormed) :
    (Timers.emptyInactive true rounds t).waits.Perm t.waits := by
  induction rounds generalizing t
  case zero           => exact .refl _
  case succ rounds hi =>
    unfold Timers.emptyInactive
    split
    case h_2        => exact .refl _
    case h_1 s l hs =>
      have hc := (h.of_mem_inactive (hs ▸ List.mem_cons_self)).1
      exact (hi (h.releaseSlot hc)).trans (h.waits_releaseSlot hc)

theorem waits_abortPendingTimerWaits (h : t.WellFormed) :
    t.abortPendingTimerWaits.waits.Perm t.waits :=
  h.emptyHeap.waits_emptyInactive.trans h.waits_emptyHeap

-- Clearing the timers drops what a slot has submitted.
theorem waits_releaseSlot_subperm (h : t.WellFormed) (hc : (t.slots s).context = some .this) :
    (t.releaseSlot false s).waits.Subperm t.waits := by
  have he : (t.releaseSlot false s).waits = (t.erase s).waits := waits_setSlot (h.erase hc).not_mem_heap
  rw [he, (h.waits_erase hc).subperm_left]
  exact (List.sublist_append_left ..).subperm

theorem waits_emptyHeap_subperm {rounds : Nat} (h : t.WellFormed) :
    (Timers.emptyHeap false rounds t).waits.Subperm t.waits := by
  induction rounds generalizing t
  case zero           => exact .refl _
  case succ rounds hi =>
    unfold Timers.emptyHeap
    split
    case h_2      => exact .refl _
    case h_1 s hs =>
      have hc := (h.of_mem_heap (PairingHeap.front_mem hs)).1
      exact (hi (h.releaseSlot hc)).trans (h.waits_releaseSlot_subperm hc)

theorem waits_emptyInactive_subperm {rounds : Nat} (h : t.WellFormed) :
    (Timers.emptyInactive false rounds t).waits.Subperm t.waits := by
  induction rounds generalizing t
  case zero           => exact .refl _
  case succ rounds hi =>
    unfold Timers.emptyInactive
    split
    case h_2        => exact .refl _
    case h_1 s l hs =>
      have hc := (h.of_mem_inactive (hs ▸ List.mem_cons_self)).1
      exact (hi (h.releaseSlot hc)).trans (h.waits_releaseSlot_subperm hc)

theorem waits_clear_subperm (h : t.WellFormed) : t.clear.waits.Subperm t.waits := by
  have hr : (t.releaseAll false).waits.Subperm t.waits :=
    h.emptyHeap.waits_emptyInactive_subperm.trans h.waits_emptyHeap_subperm
  have hs : t.clear.waits.Sublist (t.releaseAll false).waits := .append_left (List.nil_sublist _) _
  exact hs.subperm.trans hr

end WellFormed
end Bnio.Posix.Timers
