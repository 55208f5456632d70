import Bnio.Posix.Timers

namespace Bnio.Posix.Timers

variable {t : Timers} {s r : SlotId} {v : Slot} {op : OpId} {kind : CompletionKind} {now : Nat}

-- A registered slot is in the container its `active` flag names, and only active slots have waits.
structure SlotOk (t : Timers) (r : SlotId) : Prop where
  heap         : r ∈ t.heap.members ↔ (t.slots r).context = some .this ∧ (t.slots r).active
  inactive     : r ∈ t.inactive ↔ (t.slots r).context = some .this ∧ !(t.slots r).active
  unregistered : (t.slots r).context = none → (t.slots r).active = false
  submitted    : (t.slots r).context ≠ some .other → (t.slots r).active = false →
                  (t.slots r).submitted = []

structure Containers (t : Timers) : Prop where
  heap     : t.heap.WellFormed t.expiry
  nodup    : t.heap.members.Nodup
  inactive : t.inactive.Nodup

structure WellFormed (t : Timers) : Prop where
  containers : t.Containers
  slot       : ∀ r, t.SlotOk r

-- The slot `s` is in no container; every other slot is in its place.
structure Loose (s : SlotId) (t : Timers) : Prop where
  containers       : t.Containers
  slot             : ∀ r ≠ s, t.SlotOk r
  not_mem_heap     : s ∉ t.heap.members
  not_mem_inactive : s ∉ t.inactive
  not_active       : (t.slots s).active = false

theorem wellFormed_init : ({} : Timers).WellFormed where
  containers := ⟨PairingHeap.wellFormed_nil _, .nil, .nil⟩
  slot r     := ⟨by simp [PairingHeap.members], by simp, by simp, by simp⟩

@[simp]
theorem setSlot_self : (t.setSlot s v).slots s = v :=
  Function.update_self ..

theorem setSlot_of_ne (h : r ≠ s) : (t.setSlot s v).slots r = t.slots r :=
  Function.update_of_ne h ..

@[simp]
theorem setSlot_heap : (t.setSlot s v).heap = t.heap :=
  rfl

@[simp]
theorem setSlot_inactive : (t.setSlot s v).inactive = t.inactive :=
  rfl

@[simp]
theorem setSlot_ready : (t.setSlot s v).ready = t.ready :=
  rfl

@[simp]
theorem stageSubmitted_slots :
    (t.stageSubmitted s kind).slots = Function.update t.slots s { t.slots s with submitted := [] } :=
  rfl

@[simp]
theorem stageSubmitted_heap : (t.stageSubmitted s kind).heap = t.heap :=
  rfl

@[simp]
theorem stageSubmitted_inactive : (t.stageSubmitted s kind).inactive = t.inactive :=
  rfl

theorem eraseHeap_slots :
    (t.eraseHeap s).slots = Function.update t.slots s { t.slots s with active := false } := by
  unfold eraseHeap
  split
  case isTrue ha  =>
    have ha : (t.slots s).active = false := by simpa using ha
    exact (Function.update_eq_self_iff.mpr (by rw [← ha])).symm
  case isFalse => rfl

theorem erase_slots :
    (t.erase s).slots = Function.update t.slots s { t.slots s with active := false } := by
  unfold erase
  split
  case isTrue     => exact eraseHeap_slots
  case isFalse ha =>
    have ha : (t.slots s).active = false := by simpa using ha
    simp only [eraseInactive, ha, Bool.false_eq_true, if_false]
    exact (Function.update_eq_self_iff.mpr (by rw [← ha])).symm

theorem expiry_setSlot (hv : v.expiry = t.expiry s) : (t.setSlot s v).expiry r = t.expiry r := by
  by_cases hr : r = s
  case neg => exact congrArg Slot.expiry (setSlot_of_ne hr)
  case pos => subst hr; simpa [expiry] using hv

theorem pushHeap_ready : (t.pushHeap s).ready = t.ready := by
  unfold pushHeap
  split <;> rfl

theorem pushInactive_ready : (t.pushInactive s).ready = t.ready := by
  unfold pushInactive
  split <;> rfl

theorem insert_ready : (t.insert s now).ready = t.ready := by
  unfold insert
  split
  · exact pushHeap_ready
  · exact pushInactive_ready

theorem erase_ready : (t.erase s).ready = t.ready := by
  simp only [erase, eraseHeap, eraseInactive]
  split
  · split <;> rfl
  · rfl

-- `heap_deadline` is the greatest lower bound of the expiries in the heap.
theorem le_heapDeadline_iff {d : TimePoint} (hw : t.heap.WellFormed t.expiry) :
    d ≤ t.heapDeadline ↔ ∀ r ∈ t.heap.members, d ≤ t.expiry r := by
  cases hf : t.heap.front?
  case none   => simp [heapDeadline, hf, PairingHeap.members_eq_nil.mpr hf]
  case some r =>
    simp only [heapDeadline, hf, Option.elim_some]
    exact ⟨fun hd x hx => hd.trans (hw.front_le hf hx), fun h => h r (PairingHeap.front_mem hf)⟩

theorem heapDeadline_eq_top (hw : t.heap.WellFormed t.expiry) (h : t.heap.members = []) :
    t.heapDeadline = ⊤ :=
  top_le_iff.mp <| (le_heapDeadline_iff hw).mpr (by simp [h])

namespace Containers

-- A change that leaves the containers and the expiries in the heap alone.
theorem congr {t' : Timers} (h : t.Containers) (hh : t'.heap = t.heap) (hi : t'.inactive = t.inactive)
    (he : ∀ r ∈ t.heap.members, t'.expiry r = t.expiry r) : t'.Containers where
  heap     := hh ▸ h.heap.congr he
  nodup    := hh ▸ h.nodup
  inactive := hi ▸ h.inactive

end Containers

theorem SlotOk.congr {t' : Timers} (h : t.SlotOk r) (hh : r ∈ t'.heap.members ↔ r ∈ t.heap.members)
    (hi : r ∈ t'.inactive ↔ r ∈ t.inactive) (hs : t'.slots r = t.slots r) : t'.SlotOk r where
  heap         := by rw [hh, hs]; exact h.heap
  inactive     := by rw [hi, hs]; exact h.inactive
  unregistered := by rw [hs]; exact h.unregistered
  submitted    := by rw [hs]; exact h.submitted

namespace Loose

theorem expiry_setSlot (h : t.Loose s) (hr : r ∈ t.heap.members) :
    (t.setSlot s v).expiry r = t.expiry r :=
  congrArg Slot.expiry <| setSlot_of_ne (ne_of_mem_of_not_mem hr h.not_mem_heap)

theorem setSlot (h : t.Loose s) (hv : v.active = false) : (t.setSlot s v).Loose s where
  containers       := h.containers.congr rfl rfl fun _ => h.expiry_setSlot
  slot r hr        := (h.slot r hr).congr .rfl .rfl (setSlot_of_ne hr)
  not_mem_heap     := h.not_mem_heap
  not_mem_inactive := h.not_mem_inactive
  not_active       := by simpa using hv

theorem enqueue {ops : List OpId} (h : t.Loose s) : (t.enqueueTimerOperations ops kind).Loose s :=
  ⟨⟨h.containers.heap, h.containers.nodup, h.containers.inactive⟩,
    fun r hr => (h.slot r hr).congr .rfl .rfl rfl, h.not_mem_heap, h.not_mem_inactive, h.not_active⟩

theorem stageSubmitted (h : t.Loose s) : (t.stageSubmitted s kind).Loose s :=
  Loose.enqueue <| h.setSlot (v := { t.slots s with submitted := [] }) h.not_active

-- A slot that is in no container and does not belong here completes the state.
theorem wellFormed (h : t.Loose s) (hc : (t.slots s).context = none)
    (hs : (t.slots s).submitted = []) : t.WellFormed where
  containers := h.containers
  slot r     := by
    by_cases hr : r = s
    case neg => exact h.slot r hr
    case pos =>
      subst hr
      exact ⟨by simp [h.not_mem_heap, hc], by simp [h.not_mem_inactive, hc], fun _ => h.not_active,
        fun _ _ => hs⟩

theorem pushHeap (h : t.Loose s) (hc : (t.slots s).context = some .this) :
    (t.pushHeap s).WellFormed := by
  simp only [Timers.pushHeap, h.not_active, Bool.false_eq_true, if_false]
  generalize ht : t.setSlot s { t.slots s with active := true } = t'
  have hh : t'.heap = t.heap := ht ▸ rfl
  have hi : t'.inactive = t.inactive := ht ▸ rfl
  have hw : t'.heap.WellFormed t'.expiry :=
    hh ▸ h.containers.heap.congr fun _ hr => ht ▸ h.expiry_setSlot hr
  have hm : (t'.heap.push t'.expiry s).members.Perm (s :: t.heap.members) := by
    rw [← hh]; exact hw.push_members
  refine ⟨⟨hw.push, ?_, hi ▸ h.containers.inactive⟩, fun r => ?_⟩
  · exact hm.nodup_iff.mpr <| List.nodup_cons.mpr ⟨h.not_mem_heap, h.containers.nodup⟩
  · by_cases hr : r = s
    case neg =>
      exact (h.slot r hr).congr (by simpa [hr] using hm.mem_iff (a := r)) (by simp [hi])
        (ht ▸ setSlot_of_ne hr)
    case pos =>
      subst hr
      have hr : t'.slots r = { t.slots r with active := true } := ht ▸ setSlot_self
      exact ⟨by simp [hr, hc, hm.mem_iff], by simp [hr, hi, h.not_mem_inactive],
        by simp [hr, hc], by simp [hr]⟩

theorem pushInactive (h : t.Loose s) (hc : (t.slots s).context = some .this)
    (hs : (t.slots s).submitted = []) : (t.pushInactive s).WellFormed := by
  have he : t.pushInactive s = { t with inactive := s :: t.inactive } := by
    simp [Timers.pushInactive, h.not_active, h.not_mem_inactive]
  rw [he]
  have hn := List.nodup_cons.mpr ⟨h.not_mem_inactive, h.containers.inactive⟩
  refine ⟨⟨h.containers.heap, h.containers.nodup, hn⟩, fun r => ?_⟩
  by_cases hr : r = s
  case neg => exact (h.slot r hr).congr .rfl (by simp [hr]) rfl
  case pos =>
    subst hr
    exact ⟨by simp [h.not_mem_heap, h.not_active], by simp [hc, h.not_active],
      fun _ => h.not_active, fun _ _ => hs⟩

theorem insert (h : t.Loose s) (hc : (t.slots s).context = some .this)
    (hs : (t.slots s).submitted = []) : (t.insert s now).WellFormed := by
  unfold Timers.insert
  split
  · exact h.pushHeap hc
  · exact h.pushInactive hc hs

end Loose

namespace WellFormed

theorem of_mem_heap (h : t.WellFormed) (hs : s ∈ t.heap.members) :
    (t.slots s).context = some .this ∧ (t.slots s).active :=
  (h.slot s).heap.mp hs

theorem eraseHeap (h : t.WellFormed) (hs : s ∈ t.heap.members) : (t.eraseHeap s).Loose s := by
  have hm := h.containers.heap.tree.erase_members t.expiry hs
  have hn := List.nodup_cons.mp (hm.nodup_iff.mp h.containers.nodup)
  have hi : s ∉ t.inactive := by simp [(h.slot s).inactive, (h.of_mem_heap hs).2]
  have hc : { t with heap := t.heap.erase t.expiry s }.Containers :=
    ⟨h.containers.heap.erase, hn.2, h.containers.inactive⟩
  simp only [Timers.eraseHeap, (h.of_mem_heap hs).2, Bool.not_true, Bool.false_eq_true, if_false]
  refine ⟨hc.congr rfl rfl fun r hr => ?_, fun r hr => ?_, hn.1, hi, by simp⟩
  · exact congrArg Slot.expiry <| setSlot_of_ne (ne_of_mem_of_not_mem hr hn.1)
  · exact (h.slot r).congr (by simpa [hr] using (hm.mem_iff (a := r)).symm) .rfl (setSlot_of_ne hr)

theorem eraseInactive (h : t.WellFormed) (ha : (t.slots s).active = false) :
    (t.eraseInactive s).Loose s := by
  have hh : s ∉ t.heap.members := by simp [(h.slot s).heap, ha]
  have hn := h.containers.inactive
  simp only [Timers.eraseInactive, ha, Bool.false_eq_true, if_false]
  refine ⟨⟨h.containers.heap, h.containers.nodup, hn.erase s⟩, fun r hr => ?_, hh, ?_, ha⟩
  · exact (h.slot r).congr .rfl (List.mem_erase_of_ne hr) rfl
  · exact hn.not_mem_erase

theorem erase (h : t.WellFormed) (hc : (t.slots s).context = some .this) : (t.erase s).Loose s := by
  unfold Timers.erase
  split
  case isTrue ha  => exact h.eraseHeap ((h.slot s).heap.mpr ⟨hc, ha⟩)
  case isFalse ha => exact h.eraseInactive (by simpa using ha)

-- A slot that is not registered is in no container.
theorem loose (h : t.WellFormed) (hc : (t.slots s).context = none) : t.Loose s where
  containers       := h.containers
  slot r _         := h.slot r
  not_mem_heap     := by simp [(h.slot s).heap, hc]
  not_mem_inactive := by simp [(h.slot s).inactive, hc]
  not_active       := (h.slot s).unregistered hc

theorem enqueue {ops : List OpId} (h : t.WellFormed) :
    (t.enqueueTimerOperations ops kind).WellFormed :=
  ⟨⟨h.containers.heap, h.containers.nodup, h.containers.inactive⟩,
    fun r => (h.slot r).congr .rfl .rfl rfl⟩

-- What a slot has submitted is of no importance as long as the slot is active.
theorem setSubmitted {ops : List OpId} (h : t.WellFormed)
    (ho : ops = [] ∨ (t.slots s).active = true) :
    (t.setSlot s { t.slots s with submitted := ops }).WellFormed := by
  have he (r : SlotId) : (t.setSlot s { t.slots s with submitted := ops }).expiry r = t.expiry r := by
    by_cases hr : r = s
    case neg => exact congrArg Slot.expiry (setSlot_of_ne hr)
    case pos => subst hr; simp [expiry]
  refine ⟨h.containers.congr rfl rfl fun r _ => he r, fun r => ?_⟩
  by_cases hr : r = s
  case neg => exact (h.slot r).congr .rfl .rfl (setSlot_of_ne hr)
  case pos =>
    subst hr
    refine ⟨by simpa using (h.slot r).heap, by simpa using (h.slot r).inactive,
      by simpa using (h.slot r).unregistered, ?_⟩
    intro _ ha
    simp only [setSlot_self] at ha ⊢
    exact ho.resolve_right (by simp [ha])

theorem stageSubmitted (h : t.WellFormed) : (t.stageSubmitted s kind).WellFormed :=
  (h.setSubmitted (.inl rfl)).enqueue

-- A slot that does not belong here may be replaced by another such slot.
theorem foreign (h : t.WellFormed) (hs : (t.slots s).context ≠ some .this)
    (hv : v.context ≠ some .this)
    (hn : v.context = none → v.active = false ∧ v.submitted = []) : (t.setSlot s v).WellFormed := by
  have hh : s ∉ t.heap.members := fun hm => hs ((h.slot s).heap.mp hm).1
  have hi : s ∉ t.inactive := fun hm => hs ((h.slot s).inactive.mp hm).1
  have ho : v.context ≠ some .other → v.context = none := fun ho =>
    Option.eq_none_iff_forall_ne_some.mpr (by rintro (_ | _) <;> assumption)
  refine ⟨h.containers.congr rfl rfl fun r hr => ?_, fun r => ?_⟩
  · exact congrArg Slot.expiry <| setSlot_of_ne (ne_of_mem_of_not_mem hr hh)
  · by_cases hr : r = s
    case neg => exact (h.slot r).congr .rfl .rfl (setSlot_of_ne hr)
    case pos =>
      subst hr
      exact ⟨by simp [hh, hv], by simp [hi, hv], by simpa using fun h => (hn h).1,
        by simpa using fun h _ => (hn (ho h)).2⟩

theorem registerTimerLocked (h : t.WellFormed) : (t.registerTimerLocked s now).1.WellFormed := by
  unfold Timers.registerTimerLocked
  split
  case isTrue     => exact h
  case isFalse hc =>
    have hl := h.loose (not_not.mp hc)
    refine Loose.insert (hl.setSlot ?_) (by simp) (by simp)
    exact hl.not_active

theorem unregisterTimerLocked (h : t.WellFormed) : (t.unregisterTimerLocked s).1.WellFormed := by
  unfold Timers.unregisterTimerLocked
  split
  case isTrue     => exact h
  case isFalse hc =>
    have hl := h.erase (not_not.mp hc)
    refine Loose.wellFormed (Loose.stageSubmitted (hl.setSlot ?_)) (by simp) (by simp)
    exact hl.not_active

theorem cancelTimerLocked (h : t.WellFormed) : (t.cancelTimerLocked s).1.WellFormed := by
  unfold Timers.cancelTimerLocked
  split
  · exact h
  · exact h.stageSubmitted

theorem setTimerExpiryLocked {e : TimePoint} (h : t.WellFormed) :
    (t.setTimerExpiryLocked s e now).1.WellFormed := by
  unfold Timers.setTimerExpiryLocked
  split
  case isTrue     => exact h
  case isFalse hc =>
    have hc := not_not.mp hc
    have hl := h.erase hc
    refine Loose.insert (Loose.stageSubmitted (hl.setSlot ?_)) ?_ (by simp)
    · exact hl.not_active
    · simp [erase_slots, hc]

theorem startTimerWaitLocked (h : t.WellFormed) : (t.startTimerWaitLocked op s).1.WellFormed := by
  unfold Timers.startTimerWaitLocked
  split
  · exact h.enqueue
  · split
    case isTrue     => exact h.enqueue
    case isFalse ha => exact h.setSubmitted (.inr (by simpa using ha))

theorem expire (h : t.WellFormed) (hs : s ∈ t.heap.members) : (t.expire s).WellFormed := by
  refine Loose.pushInactive (h.eraseHeap hs).stageSubmitted ?_ (by simp)
  simpa [eraseHeap_slots] using (h.of_mem_heap hs).1

theorem drainExpired {rounds : Nat} (h : t.WellFormed) : (drainExpired now rounds t).WellFormed := by
  induction rounds generalizing t
  case zero           => exact h
  case succ rounds hi =>
    unfold Timers.drainExpired
    split
    case h_2 => exact h
    case h_1 s hs =>
      split
      · exact hi (h.expire (PairingHeap.front_mem hs))
      · exact h

theorem fetchTimeoutOperations (h : t.WellFormed) : (t.fetchTimeoutOperations now).1.WellFormed :=
  have hd : (Timers.drainExpired now t.heap.members.length t).WellFormed := h.drainExpired
  ⟨⟨hd.containers.heap, hd.containers.nodup, hd.containers.inactive⟩,
    fun r => (hd.slot r).congr .rfl .rfl rfl⟩

theorem releaseSlot {stages : Bool} (h : t.WellFormed) (hc : (t.slots s).context = some .this) :
    (t.releaseSlot stages s).WellFormed := by
  have hl := h.erase hc
  have hw : ((t.erase s).setSlot s
      { (t.erase s).slots s with context := none, submitted := [] }).WellFormed :=
    Loose.wellFormed (hl.setSlot hl.not_active) (by simp) (by simp)
  unfold Timers.releaseSlot
  split
  · exact hw.enqueue
  · exact hw

theorem emptyHeap {stages : Bool} {rounds : Nat} (h : t.WellFormed) :
    (emptyHeap stages rounds t).WellFormed := by
  induction rounds generalizing t
  case zero           => exact h
  case succ rounds hi =>
    unfold Timers.emptyHeap
    split
    case h_2      => exact h
    case h_1 s hs => exact hi (h.releaseSlot (h.of_mem_heap (PairingHeap.front_mem hs)).1)

theorem of_mem_inactive (h : t.WellFormed) (hs : s ∈ t.inactive) :
    (t.slots s).context = some .this ∧ (t.slots s).active = false := by
  simpa using (h.slot s).inactive.mp hs

theorem emptyInactive {stages : Bool} {rounds : Nat} (h : t.WellFormed) :
    (emptyInactive stages rounds t).WellFormed := by
  induction rounds generalizing t
  case zero           => exact h
  case succ rounds hi =>
    unfold Timers.emptyInactive
    split
    case h_2        => exact h
    case h_1 s l hs => exact hi (h.releaseSlot (h.of_mem_inactive (hs ▸ List.mem_cons_self)).1)

theorem releaseAll {stages : Bool} (h : t.WellFormed) : (t.releaseAll stages).WellFormed :=
  h.emptyHeap.emptyInactive

theorem clear (h : t.WellFormed) : t.clear.WellFormed :=
  have hr : (t.releaseAll false).WellFormed := h.releaseAll
  ⟨⟨hr.containers.heap, hr.containers.nodup, hr.containers.inactive⟩,
    fun r => (hr.slot r).congr .rfl .rfl rfl⟩

end WellFormed

end Bnio.Posix.Timers
