import Bnio.Lib.Links
import Bnio.Posix.TimerData
import Bnio.Posix.TimerState

namespace Bnio.Posix

def TimerSlot.toSlot (v : TimerSlot) : Slot :=
  ⟨v.context, v.expiry, v.submitted.ops, v.active⟩

namespace Timers

-- The two containers have no slot in common, nor twice.
structure Apart (t : Timers) : Prop where
  tree  : t.heap.IsTree
  nodup : (t.heap.members ++ t.inactive).Nodup

variable {t : Timers} {s : SlotId}

theorem pushInactive_enqueue {ops : List OpId} {kind : CompletionKind} :
    (t.enqueueTimerOperations ops kind).pushInactive s =
      (t.pushInactive s).enqueueTimerOperations ops kind := by
  unfold pushInactive
  by_cases h : ((t.slots s).active || decide (s ∈ t.inactive)) = true
  case pos => rw [if_pos h]; exact if_pos h
  case neg => rw [if_neg h]; exact if_neg h

theorem expire_eq (t : Timers) (s : SlotId) : t.expire s =
    (((t.eraseHeap s).setSlot s { (t.eraseHeap s).slots s with submitted := [] }).pushInactive
      s).enqueueTimerOperations ((t.eraseHeap s).slots s).submitted .value :=
  pushInactive_enqueue

-- One timer less is in the heap.
theorem WellFormed.length_eraseHeap (h : t.WellFormed) (hs : s ∈ t.heap.members) :
    (t.eraseHeap s).heap.members.length + 1 = t.heap.members.length := by
  have hp := h.containers.heap.tree.erase_members t.expiry hs
  simpa [Timers.eraseHeap, (h.of_mem_heap hs).2] using hp.length_eq.symm

theorem WellFormed.length_expire (h : t.WellFormed) (hs : s ∈ t.heap.members) :
    (t.expire s).heap.members.length + 1 = t.heap.members.length := by
  rw [← h.length_eraseHeap hs, Timers.expire_eq]
  simp only [Timers.pushInactive, enqueueTimerOperations]
  split <;> rfl

-- A released slot leaves its container and no other.
theorem releaseSlot_heap {stages : Bool} : (t.releaseSlot stages s).heap = (t.erase s).heap := by
  cases stages <;> rfl

theorem releaseSlot_inactive {stages : Bool} :
    (t.releaseSlot stages s).inactive = (t.erase s).inactive := by
  cases stages <;> rfl

theorem WellFormed.length_releaseSlot_heap (h : t.WellFormed) (stages : Bool)
    (hs : s ∈ t.heap.members) :
    (t.releaseSlot stages s).heap.members.length + 1 = t.heap.members.length := by
  rw [releaseSlot_heap, Timers.erase, if_pos (h.of_mem_heap hs).2, h.length_eraseHeap hs]

theorem WellFormed.inactive_releaseSlot {l : List SlotId} (h : t.WellFormed) (stages : Bool)
    (hs : t.inactive = s :: l) : (t.releaseSlot stages s).inactive = l := by
  have ha := (h.of_mem_inactive (hs ▸ List.mem_cons_self)).2
  simp [releaseSlot_inactive, Timers.erase, Timers.eraseInactive, ha, hs]

theorem inactive_eraseHeap : (t.eraseHeap s).inactive = t.inactive := by
  unfold eraseHeap
  split <;> rfl

theorem WellFormed.inactive_emptyHeap {stages : Bool} {rounds : Nat} (h : t.WellFormed) :
    (Timers.emptyHeap stages rounds t).inactive = t.inactive := by
  induction rounds generalizing t
  case zero           => rfl
  case succ rounds hi =>
    unfold Timers.emptyHeap
    split
    case h_2      => rfl
    case h_1 s hs =>
      have hc := h.of_mem_heap (PairingHeap.front_mem hs)
      rw [hi (h.releaseSlot hc.1), releaseSlot_inactive, Timers.erase, if_pos hc.2,
        inactive_eraseHeap]

theorem Loose.apart (h : t.Loose s) : t.Apart where
  tree  := h.containers.heap.tree
  nodup := by
    refine List.nodup_append.mpr ⟨h.containers.nodup, h.containers.inactive, fun r hr r' hr' he => ?_⟩
    subst he
    have hne : r ≠ s := ne_of_mem_of_not_mem hr h.not_mem_heap
    have ha := ((h.slot r hne).heap.mp hr).2
    have hi := ((h.slot r hne).inactive.mp hr').2
    simp [ha] at hi

theorem WellFormed.apart (h : t.WellFormed) : t.Apart where
  tree  := h.containers.heap.tree
  nodup := by
    refine List.nodup_append.mpr ⟨h.containers.nodup, h.containers.inactive, fun r hr r' hr' he => ?_⟩
    subst he
    have ha := ((h.slot r).heap.mp hr).2
    have hi := ((h.slot r).inactive.mp hr').2
    simp [ha] at hi

end Timers

namespace TimerData

variable {d : TimerData} {t : Timers} {s r : SlotId} {v : TimerSlot} {u : Slot}
variable {op : OpId} {kind : CompletionKind} {now fuel : Nat}

-- The links of the inactive list.
def list (d : TimerData) : Links SlotId :=
  ⟨d.links.next, d.links.previous⟩

-- The links of the slots form the heap and the inactive list of `t`, and every slot that is in neither
-- has none.
structure Refines (d : TimerData) (t : Timers) : Prop where
  slots    : ∀ s, (d.slots s).toSlot = t.slots s
  size     : ∀ s, (d.slots s).submitted.size = (d.slots s).submitted.ops.length
  heap     : d.links.Forest none t.heap d.heap
  inactive : d.list.IsQueue t.inactive
  head     : d.inactive = t.inactive.head?
  child    : ∀ s ∈ t.inactive, d.links.child s = none
  free     : ∀ s, s ∉ t.heap.members → s ∉ t.inactive → d.links.links s = (none, none, none)
  ready    : d.ready = t.ready

theorem refines_init : ({} : TimerData).Refines {} where
  slots _    := rfl
  size _     := rfl
  heap       := rfl
  inactive   := Links.isQueue_nil _
  head       := rfl
  child      := nofun
  free _ _ _ := rfl
  ready      := rfl

namespace Refines

theorem expiry (h : d.Refines t) : d.expiry = t.expiry :=
  funext fun s => congrArg Slot.expiry (h.slots s)

theorem active (h : d.Refines t) (s : SlotId) : (d.slots s).active = (t.slots s).active :=
  congrArg Slot.active (h.slots s)

theorem context (h : d.Refines t) (s : SlotId) : (d.slots s).context = (t.slots s).context :=
  congrArg Slot.context (h.slots s)

theorem submitted (h : d.Refines t) (s : SlotId) :
    (d.slots s).submitted.ops = (t.slots s).submitted :=
  congrArg Slot.submitted (h.slots s)

theorem heapDeadline (h : d.Refines t) : d.heapDeadline = t.heapDeadline := by
  rw [TimerData.heapDeadline, Timers.heapDeadline, h.heap.front, h.expiry]

theorem setSlot (h : d.Refines t) (hv : v.toSlot = u)
    (hs : v.submitted.size = v.submitted.ops.length) : (d.setSlot s v).Refines (t.setSlot s u) where
  slots r := by
    by_cases hr : r = s
    case pos => subst hr; simp [TimerData.setSlot, Timers.setSlot, hv]
    case neg => simp [TimerData.setSlot, Timers.setSlot, hr, h.slots]
  size r := by
    by_cases hr : r = s
    case pos => subst hr; simp [TimerData.setSlot, hs]
    case neg => simp [TimerData.setSlot, hr, h.size]
  heap     := h.heap
  inactive := h.inactive
  head     := h.head
  child    := h.child
  free     := h.free
  ready    := h.ready

theorem enqueue {ops : List OpId} (h : d.Refines t) :
    (d.enqueueTimerOperations ops kind).Refines (t.enqueueTimerOperations ops kind) :=
  { h with ready := by simp [TimerData.enqueueTimerOperations, Timers.enqueueTimerOperations, h.ready] }

theorem stageSubmitted (h : d.Refines t) :
    (d.stageSubmitted s kind).Refines (t.stageSubmitted s kind) := by
  unfold TimerData.stageSubmitted Timers.stageSubmitted TimerData.takeTimerOperations
  rw [h.submitted]
  refine (h.setSlot ?_ rfl).enqueue
  simp [TimerSlot.toSlot, ← h.slots s]

-- A change of the links that keeps those of the inactive slots.
theorem list_congr {L : HeapLinks SlotId} {l : List SlotId} (h : d.list.IsQueue l)
    (hl : ∀ m ∈ l, L.links m = d.links.links m) : (Links.mk L.next L.previous).IsQueue l :=
  h.congr fun m hm => by
    have := hl m hm
    simp only [HeapLinks.links, Prod.mk.injEq] at this
    exact ⟨this.2.2, this.1⟩

theorem pushHeap (h : d.Refines t) (ha : t.Apart) (hh : s ∉ t.heap.members) (hi : s ∉ t.inactive) :
    (d.pushHeap s).Refines (t.pushHeap s) := by
  unfold TimerData.pushHeap Timers.pushHeap
  rw [h.active s]
  split
  case isTrue  => exact h
  case isFalse =>
    have h₁ : (d.setSlot s { d.slots s with active := true }).Refines
        (t.setSlot s { t.slots s with active := true }) :=
      h.setSlot (by simp [TimerSlot.toSlot, ← h.slots s]) (h.size s)
    generalize d.setSlot s { d.slots s with active := true } = d₁ at h₁ ⊢
    generalize ht : t.setSlot s { t.slots s with active := true } = t₁ at h₁ ⊢
    have hth : t₁.heap = t.heap := ht ▸ rfl
    have hti : t₁.inactive = t.inactive := ht ▸ rfl
    obtain ⟨hd, hdi, hdis⟩ := List.nodup_append.mp ha.nodup
    have hc : ∀ m, m ≠ s → (d₁.links.clear s).links m = d₁.links.links m := fun m hm => by
      rw [HeapLinks.clear_links, if_neg hm]
    have hs : (d₁.links.clear s).Forest none (.node s .nil .nil) (some s) := by
      have hl := HeapLinks.clear_links (L := d₁.links) (n := s) (m := s)
      simp only [if_true, HeapLinks.links, Prod.mk.injEq] at hl
      exact ⟨rfl, hl.1, hl.2.1, hl.2.2⟩
    have hf := h₁.heap.congr fun m hm => hc m (ne_of_mem_of_not_mem (hth ▸ hm) hh)
    have hn : (t₁.heap.members ++ (PairingHeap.node s .nil .nil).members).Nodup := by
      simpa [PairingHeap.members, hth, List.nodup_append, hd] using
        fun m hm => ne_of_mem_of_not_mem hm hh
    obtain ⟨hm, hfr⟩ := hf.meld d₁.expiry hs (hth ▸ ha.tree) rfl hn
    have hp := PairingHeap.meld_members d₁.expiry (hth ▸ ha.tree : t₁.heap.IsTree)
      (PairingHeap.isTree_single s .nil)
    -- A node outside of the new heap has kept its links.
    have hk : ∀ m, m ∉ t.heap.members → m ≠ s →
        ((d₁.links.clear s).meld d₁.expiry d₁.heap (some s)).1.links m = d₁.links.links m :=
      fun m hm hms => (hfr m (by simp [PairingHeap.members, hth, hm, hms])).trans (hc m hms)
    have he : t₁.heap.push t₁.expiry s = t₁.heap.meld d₁.expiry (.node s .nil .nil) := by
      rw [h₁.expiry]
      rfl
    simp only [he]
    have hki : ∀ m ∈ t₁.inactive, _ := fun m hm =>
      hk m (fun hx => hdis m hx m (hti ▸ hm) rfl) fun he => hi (he ▸ hti ▸ hm)
    refine ⟨h₁.slots, h₁.size, hm, list_congr h₁.inactive hki, h₁.head, fun m hm => ?_,
      fun r hr hri => ?_, h₁.ready⟩
    · exact (congrArg (·.2.1) (hki m hm)).trans (h₁.child m hm)
    · have hr : r ∉ t.heap.members ∧ r ≠ s := by
        rw [hp.mem_iff] at hr
        simpa [PairingHeap.members, hth] using hr
      rw [hk r hr.1 hr.2]
      exact h₁.free r (hth ▸ hr.1) hri

-- What an erased slot leaves of the two containers.
theorem eraseHeap (h : d.Refines t) (ha : t.Apart) (hs : s ∈ t.heap.members)
    (hact : (t.slots s).active) (hf : t.heap.members.length ≤ fuel) :
    ∃ d', d.eraseHeap fuel s = some d' ∧ d'.Refines (t.eraseHeap s) := by
  have ⟨hd, hdi, hdis⟩ := List.nodup_append.mp ha.nodup
  have hg : ¬(d.links.previous s = none ∧ d.heap ≠ some s) := fun hg => by
    obtain ⟨he, _⟩ | ⟨m, _, hm⟩ := h.heap.previous_mem hs
    · exact hg.2 he
    · simp [hg.1] at hm
  have ⟨L, root, he, hF, hn, hfr⟩ := h.heap.erase d.expiry ha.tree hd hs hf
  have hu : d.eraseHeap fuel s =
      some ({ d with links := L, heap := root }.setSlot s { d.slots s with active := false }) := by
    simp [TimerData.eraseHeap, h.active s, hact, hg, he]
  refine ⟨_, hu, ?_⟩
  simp only [Timers.eraseHeap, hact, Bool.not_true, Bool.false_eq_true, if_false, ← h.expiry]
  refine Refines.setSlot ?_ (by simp [TimerSlot.toSlot, ← h.slots s]) (h.size s)
  have hki : ∀ m ∈ t.inactive, L.links m = d.links.links m := fun m hm =>
    hfr m fun hx => hdis m hx m hm rfl
  refine ⟨h.slots, h.size, hF, list_congr h.inactive hki, h.head, fun m hm => ?_,
    fun r hr hri => ?_, h.ready⟩
  · exact (congrArg (·.2.1) (hki m hm)).trans (h.child m hm)
  · by_cases hrs : r = s
    case pos => exact hrs ▸ hn
    case neg =>
      have hp := ha.tree.erase_members d.expiry hs
      have hr : r ∉ t.heap.members := fun hx => hr <| by simpa [hrs] using hp.mem_iff.mp hx
      exact (hfr r hr).trans (h.free r hr hri)

-- A change of the inactive list alone.
theorem relist {L : Links SlotId} {l : List SlotId} {inactive : Option SlotId} (h : d.Refines t)
    (hq : L.IsQueue l) (hh : inactive = l.head?) (hd : ∀ m ∈ t.heap.members, m ∉ l ∧ m ∉ t.inactive)
    (hc : ∀ m ∈ l, d.links.child m = none)
    (hL : ∀ m ∉ l, m ∉ t.inactive → L.next m = d.links.next m ∧ L.prev m = d.links.previous m)
    (hf : ∀ m ∈ t.inactive, m ∉ l → L.next m = none ∧ L.prev m = none) :
    { d with links := ⟨L.prev, d.links.child, L.next⟩, inactive }.Refines { t with inactive := l } where
  slots     := h.slots
  size      := h.size
  heap      := h.heap.congr fun m hm => by
    obtain ⟨hn, hp⟩ := hL m (hd m hm).1 (hd m hm).2
    simp [HeapLinks.links, hn, hp]
  inactive  := hq
  head      := hh
  child     := hc
  ready     := h.ready
  free m hm hl := by
    by_cases hi : m ∈ t.inactive
    case pos =>
      obtain ⟨hn, hp⟩ := hf m hi hl
      simp [HeapLinks.links, hn, hp, h.child m hi]
    case neg =>
      obtain ⟨hn, hp⟩ := hL m hl hi
      have := h.free m hm hi
      simpa [HeapLinks.links, hn, hp] using this

-- The list of the inactive slots gets a new head.
theorem pushInactive (h : d.Refines t) (hh : s ∉ t.heap.members) (hi : s ∉ t.inactive)
    (hact : (t.slots s).active = false) (ha : t.Apart) :
    (d.pushInactive s).Refines (t.pushInactive s) := by
  have hdis := (List.nodup_append.mp ha.nodup).2.2
  have hl := h.free s hh hi
  simp only [HeapLinks.links, Prod.mk.injEq] at hl
  have hhead : d.inactive ≠ some s := fun he => hi (List.mem_of_mem_head? (h.head ▸ he))
  have ht : t.pushInactive s = { t with inactive := s :: t.inactive } := by
    simp [Timers.pushInactive, hact, hi]
  have hd : d.pushInactive s = { d with
      links := ⟨(d.list.linkFront d.inactive s).prev, d.links.child,
        (d.list.linkFront d.inactive s).next⟩, inactive := some s } := by
    have hc : Function.update d.links.child s none = d.links.child :=
      Function.update_eq_self_iff.mpr hl.2.1.symm
    simp only [TimerData.pushInactive, h.active s, hact, hhead, hl.1, hl.2.2]
    cases d.inactive <;> simp [Links.linkFront, Links.setPrev, Links.setNext, TimerData.list,
      HeapLinks.setChild, HeapLinks.setPrevious, HeapLinks.setNext, hc]
  rw [hd, ht]
  refine h.relist (h.head ▸ h.inactive.linkFront hi) rfl (fun m hm => ?_) (fun m hm => ?_)
    (fun m hm hmi => ?_) fun m hm hml => absurd (List.mem_cons_of_mem s hm) hml
  · exact ⟨by simpa [ne_of_mem_of_not_mem hm hh] using fun hx => hdis m hm m hx rfl,
      fun hx => hdis m hm m hx rfl⟩
  · obtain rfl | hm := List.mem_cons.mp hm
    · exact hl.2.1
    · exact h.child m hm
  · have hms : m ≠ s := fun he => hm (by simp [he])
    exact Links.linkFront_frame hms fun he => hmi (List.mem_of_mem_head? (h.head ▸ he))

theorem eraseInactive (h : d.Refines t) (hs : s ∈ t.inactive)
    (hact : (t.slots s).active = false) (ha : t.Apart) :
    (d.eraseInactive s).Refines (t.eraseInactive s) := by
  have ⟨_, hdi, hdis⟩ := List.nodup_append.mp ha.nodup
  have hg : ¬(d.links.previous s = none ∧ d.inactive ≠ some s) := fun hg =>
    hg.2 (h.head.trans (h.inactive.head_of_prev_eq_none hs hg.1))
  have ht : t.eraseInactive s = { t with inactive := t.inactive.filter (· ≠ s) } := by
    simp only [Timers.eraseInactive, hact, hdi.erase_eq_filter, Bool.false_eq_true, if_false]
    congr
    funext r
    simp [bne, beq_eq_decide]
  have hd : d.eraseInactive s = { d with
      links := ⟨(d.list.unlink s).prev, d.links.child, (d.list.unlink s).next⟩
      inactive := if d.links.previous s = none then d.links.next s else d.inactive } := by
    have hc : Function.update d.links.child s none = d.links.child :=
      Function.update_eq_self_iff.mpr (h.child s hs).symm
    simp only [TimerData.eraseInactive, h.active s, hact, hg, Bool.false_eq_true, if_false]
    cases hp : d.links.previous s <;> cases hn : d.links.next s <;>
      simp [Links.unlink, Links.setPrev, Links.setNext, TimerData.list, HeapLinks.clear, hp, hn,
        HeapLinks.setChild, HeapLinks.setPrevious, HeapLinks.setNext, hc]
  rw [hd, ht]
  refine h.relist (h.inactive.unlink hs) ?_ (fun m hm => ?_) (fun m hm => ?_) (fun m hm hmi => ?_)
    fun m hm hml => ?_
  · rw [h.inactive.head_unlink hs, h.head]
    rfl
  · have hx : m ∉ t.inactive := fun hx => hdis m hm m hx rfl
    exact ⟨fun hx' => hx (List.mem_of_mem_filter hx'), hx⟩
  · exact h.child m (List.mem_of_mem_filter hm)
  · exact h.inactive.unlink_frame hs hmi
  · obtain rfl : m = s := by simpa [hm] using hml
    simp [Links.unlink_next, Links.unlink_prev]

-- Clearing the links of a slot that has none.
theorem clearLinks (h : d.Refines t) (hh : s ∉ t.heap.members) (hi : s ∉ t.inactive) :
    { d with links := d.links.clear s }.Refines t := by
  have hl : ∀ m, (d.links.clear s).links m = d.links.links m := fun m => by
    rw [HeapLinks.clear_links]
    split
    case isTrue hm => rw [hm, h.free s hh hi]
    case isFalse   => rfl
  exact ⟨h.slots, h.size, h.heap.congr fun m _ => hl m, list_congr h.inactive fun m _ => hl m, h.head,
    fun m hm => (congrArg (·.2.1) (hl m)).trans (h.child m hm),
    fun m hm hmi => (hl m).trans (h.free m hm hmi), h.ready⟩

theorem erase (h : d.Refines t) (ht : t.WellFormed) (hc : (t.slots s).context = some .this)
    (hf : t.heap.members.length ≤ fuel) :
    ∃ d', d.erase fuel s = some d' ∧ d'.Refines (t.erase s) := by
  unfold TimerData.erase Timers.erase
  rw [h.active s]
  split
  case isTrue ha =>
    exact h.eraseHeap ht.apart ((ht.slot s).heap.mpr ⟨hc, ha⟩) ha hf
  case isFalse ha =>
    have ha : (t.slots s).active = false := by simpa using ha
    exact ⟨_, rfl, h.eraseInactive ((ht.slot s).inactive.mpr ⟨hc, by simp [ha]⟩) ha ht.apart⟩

theorem insert (now : Nat) (h : d.Refines t) (hl : t.Loose s) :
    (d.insert s now).Refines (t.insert s now) := by
  unfold TimerData.insert Timers.insert
  rw [h.expiry]
  split
  · exact h.pushHeap hl.apart hl.not_mem_heap hl.not_mem_inactive
  · exact h.pushInactive hl.not_mem_heap hl.not_mem_inactive hl.not_active hl.apart

theorem registerTimerLocked (now : Nat) (h : d.Refines t) (ht : t.WellFormed) :
    (d.registerTimerLocked s now).1.Refines (t.registerTimerLocked s now).1 ∧
      (d.registerTimerLocked s now).2 = (t.registerTimerLocked s now).2 := by
  by_cases hc : (t.slots s).context = none
  case neg => simpa [TimerData.registerTimerLocked, Timers.registerTimerLocked, h.context s, hc]
  case pos =>
    have hl := ht.loose hc
    have h₁ := (h.setSlot (s := s) (v := { d.slots s with context := some .this, submitted := {} })
      (u := { t.slots s with context := some .this, submitted := [] })
      (by simp [TimerSlot.toSlot, ← h.slots s]) rfl).clearLinks hl.not_mem_heap hl.not_mem_inactive
    have hl₁ := hl.setSlot (v := { t.slots s with context := some .this, submitted := [] })
      hl.not_active
    have he : (t.setSlot s { t.slots s with context := some .this, submitted := [] }).expiry s =
        t.expiry s := by simp [Timers.expiry]
    simp only [TimerData.registerTimerLocked, Timers.registerTimerLocked, h.context s, hc, ne_eq,
      not_true_eq_false, if_false, Timers.insert, he, h.expiry]
    split
    case isTrue hn =>
      have h₂ := h₁.pushHeap hl₁.apart hl.not_mem_heap hl.not_mem_inactive
      exact ⟨h₂, by simp [h₂.heapDeadline, h.heapDeadline, hn]⟩
    case isFalse hn =>
      exact ⟨h₁.pushInactive hl.not_mem_heap hl.not_mem_inactive hl₁.not_active hl₁.apart,
        by simp [hn]⟩

theorem unregisterTimerLocked (h : d.Refines t) (ht : t.WellFormed)
    (hf : t.heap.members.length ≤ fuel) :
    ∃ d', d.unregisterTimerLocked fuel s = some (d', (t.unregisterTimerLocked s).2) ∧
      d'.Refines (t.unregisterTimerLocked s).1 := by
  by_cases hc : (t.slots s).context = some .this
  case neg =>
    exact ⟨d, by simp [TimerData.unregisterTimerLocked, Timers.unregisterTimerLocked, h.context s, hc],
      by simpa [Timers.unregisterTimerLocked, hc]⟩
  case pos =>
    have ⟨d', he, h'⟩ := h.erase ht hc hf
    have h₁ := h'.setSlot (s := s) (v := { d'.slots s with context := none })
      (u := { (t.erase s).slots s with context := none })
      (by simp [TimerSlot.toSlot, ← h'.slots s]) (h'.size s)
    refine ⟨(d'.setSlot s { d'.slots s with context := none }).stageSubmitted s .canceled, ?_, ?_⟩
    · simp [TimerData.unregisterTimerLocked, Timers.unregisterTimerLocked, h.context s, hc, he,
        h.submitted s]
    · simpa [Timers.unregisterTimerLocked, hc] using h₁.stageSubmitted

theorem cancelTimerLocked (h : d.Refines t) :
    (d.cancelTimerLocked s).1.Refines (t.cancelTimerLocked s).1 ∧
      (d.cancelTimerLocked s).2 = (t.cancelTimerLocked s).2 := by
  by_cases hc : (t.slots s).context = some .this
  case neg => simpa [TimerData.cancelTimerLocked, Timers.cancelTimerLocked, h.context s, hc]
  case pos =>
    simp only [TimerData.cancelTimerLocked, Timers.cancelTimerLocked, h.context s, hc, ne_eq,
      not_true_eq_false, if_false, h.size s, h.submitted s, and_true]
    exact h.stageSubmitted

theorem setTimerExpiryLocked {e : TimePoint} (now : Nat) (h : d.Refines t) (ht : t.WellFormed)
    (hf : t.heap.members.length ≤ fuel) :
    ∃ d', d.setTimerExpiryLocked fuel s e now = some (d', (t.setTimerExpiryLocked s e now).2) ∧
      d'.Refines (t.setTimerExpiryLocked s e now).1 := by
  by_cases hc : (t.slots s).context = some .this
  case neg =>
    exact ⟨d, by simp [TimerData.setTimerExpiryLocked, Timers.setTimerExpiryLocked, h.context s, hc],
      by simpa [Timers.setTimerExpiryLocked, hc]⟩
  case pos =>
    have ⟨d', he, h'⟩ := h.erase ht hc hf
    have hl := ht.erase hc
    have h₁ := h'.setSlot (s := s) (v := { d'.slots s with expiry := e })
      (u := { (t.erase s).slots s with expiry := e })
      (by simp [TimerSlot.toSlot, ← h'.slots s]) (h'.size s)
    have hl₁ : (((t.erase s).setSlot s { (t.erase s).slots s with expiry := e }).stageSubmitted s
        .canceled).Loose s :=
      (hl.setSlot (v := { (t.erase s).slots s with expiry := e }) hl.not_active).stageSubmitted
    have h₂ := h₁.stageSubmitted.insert now hl₁
    refine ⟨((d'.setSlot s { d'.slots s with expiry := e }).stageSubmitted s .canceled).insert s now,
      ?_, ?_⟩
    · simp [TimerData.setTimerExpiryLocked, Timers.setTimerExpiryLocked, h.context s, hc, he,
        h.submitted s, h.size s, h₂.heapDeadline, h.heapDeadline]
    · simpa [Timers.setTimerExpiryLocked, hc] using h₂

theorem startTimerWaitLocked (h : d.Refines t) :
    (d.startTimerWaitLocked op s).1.Refines (t.startTimerWaitLocked op s).1 ∧
      (d.startTimerWaitLocked op s).2 = (t.startTimerWaitLocked op s).2 := by
  simp only [TimerData.startTimerWaitLocked, Timers.startTimerWaitLocked, h.context s, h.active s]
  split
  · exact ⟨h.enqueue, rfl⟩
  · split
    · exact ⟨h.enqueue, rfl⟩
    · refine ⟨h.setSlot ?_ ?_, rfl⟩
      · simp [TimerSlot.toSlot, ← h.slots s]
      · simp [h.size s]

theorem popHeap_none (h : d.Refines t) (hf : t.heap.front? = none) :
    d.popHeap fuel = some (d, none) := by
  simp [TimerData.popHeap, h.heap.front, hf]

theorem popHeap_some (h : d.Refines t) (ht : t.WellFormed) (hs : t.heap.front? = some s)
    (hf : t.heap.members.length ≤ fuel) :
    ∃ d', d.popHeap fuel = some (d', some s) ∧ d'.Refines (t.eraseHeap s) := by
  have hm := PairingHeap.front_mem hs
  have ⟨d', he, h'⟩ := h.eraseHeap ht.apart hm (ht.of_mem_heap hm).2 hf
  exact ⟨d', by simp [TimerData.popHeap, h.heap.front, hs, he], h'⟩

-- The round that follows the removal of the first timer from the heap.
theorem expire (h : d.Refines (t.eraseHeap s)) (ht : t.WellFormed) (hs : s ∈ t.heap.members) :
    (((d.takeTimerOperations s).pushInactive s).enqueueTimerOperations (d.slots s).submitted.ops
      .value).Refines (t.expire s) := by
  have hl := ht.eraseHeap hs
  have hl₁ := hl.setSlot (v := { (t.eraseHeap s).slots s with submitted := [] }) hl.not_active
  have h₁ := h.setSlot (s := s) (v := { d.slots s with submitted := {} })
    (u := { (t.eraseHeap s).slots s with submitted := [] })
    (by simp [TimerSlot.toSlot, ← h.slots s]) rfl
  have h₂ := h₁.pushInactive hl.not_mem_heap hl.not_mem_inactive hl₁.not_active hl₁.apart
  rw [h.submitted s]
  exact Timers.expire_eq t s ▸ h₂.enqueue

-- The loop of the source stops on its own; a round for each timer in the heap is enough.
theorem drainExpired {rounds : Nat} (now : Nat) (h : d.Refines t) (ht : t.WellFormed)
    (hf : t.heap.members.length ≤ fuel) (hr : t.heap.members.length ≤ rounds) :
    ∃ d', TimerData.drainExpired fuel now rounds d = some d' ∧
      d'.Refines (Timers.drainExpired now t.heap.members.length t) := by
  have hd := h.heapDeadline
  induction rounds generalizing d t
  case zero =>
    have hl : t.heap.members.length = 0 := by omega
    have hm : t.heap.front? = none := PairingHeap.members_eq_nil.mp (List.eq_nil_of_length_eq_zero hl)
    refine ⟨d, ?_, by rwa [hl]⟩
    simp [TimerData.drainExpired, hd, Timers.heapDeadline, hm]
  case succ rounds hi =>
    cases hm : t.heap.front?
    case none =>
      refine ⟨d, ?_, by rwa [PairingHeap.members_eq_nil.mpr hm]⟩
      simp [TimerData.drainExpired, hd, Timers.heapDeadline, hm]
    case some s =>
      have hs := PairingHeap.front_mem hm
      have hl := ht.length_expire hs
      rw [← hl]
      by_cases hn : t.expiry s ≤ now
      case neg =>
        refine ⟨d, ?_, by simpa [Timers.drainExpired, hm, hn] using h⟩
        simp [TimerData.drainExpired, hd, Timers.heapDeadline, hm, hn]
      case pos =>
        obtain ⟨d', he, h'⟩ := h.popHeap_some ht hm hf
        have h₁ := h'.expire ht hs
        obtain ⟨d'', hd'', h''⟩ := hi h₁ (ht.expire hs) (by omega) (by omega) h₁.heapDeadline
        refine ⟨d'', ?_, by simpa [Timers.drainExpired, hm, hn] using h''⟩
        simp [TimerData.drainExpired, hd, Timers.heapDeadline, hm, hn, he, hd'']

theorem clearReady (h : d.Refines t) : { d with ready := [] }.Refines { t with ready := [] } :=
  ⟨h.slots, h.size, h.heap, h.inactive, h.head, h.child, h.free, rfl⟩

theorem fetchTimeoutOperations (now : Nat) (h : d.Refines t) (ht : t.WellFormed)
    (hf : t.heap.members.length ≤ fuel) :
    ∃ d', d.fetchTimeoutOperations fuel now = some (d', (t.fetchTimeoutOperations now).2) ∧
      d'.Refines (t.fetchTimeoutOperations now).1 := by
  have ⟨d', he, h'⟩ := h.drainExpired now ht hf hf
  refine ⟨{ d' with ready := [] }, ?_, h'.clearReady⟩
  simp [TimerData.fetchTimeoutOperations, Timers.fetchTimeoutOperations, he, h'.ready, h'.heapDeadline]

-- What follows the removal of a slot from its container in the two loops.
theorem releaseSlot (h : d.Refines (t.erase s)) (stages : Bool) :
    (if stages then (d.setSlot s { d.slots s with context := none, submitted := {} }
        ).enqueueTimerOperations (d.slots s).submitted.ops .canceled
      else d.setSlot s { d.slots s with context := none, submitted := {} }).Refines
      (t.releaseSlot stages s) := by
  have h₁ := h.setSlot (s := s) (v := { d.slots s with context := none, submitted := {} })
    (u := { (t.erase s).slots s with context := none, submitted := [] })
    (by simp [TimerSlot.toSlot, ← h.slots s]) rfl
  have hs : (d.slots s).submitted.ops = (t.slots s).submitted := by
    simp [h.submitted s, Timers.erase_slots]
  unfold Timers.releaseSlot
  split
  · exact hs ▸ h₁.enqueue
  · exact h₁

theorem emptyHeap {rounds : Nat} (h : d.Refines t) (stages : Bool) (ht : t.WellFormed)
    (hf : t.heap.members.length ≤ fuel) (hr : t.heap.members.length ≤ rounds) :
    ∃ d', TimerData.emptyHeap fuel stages rounds d = some d' ∧
      d'.Refines (Timers.emptyHeap stages t.heap.members.length t) := by
  induction rounds generalizing d t
  case zero =>
    have hl : t.heap.members.length = 0 := by omega
    have hm : t.heap.front? = none := PairingHeap.members_eq_nil.mp (List.eq_nil_of_length_eq_zero hl)
    refine ⟨d, ?_, by rwa [hl]⟩
    simp [TimerData.emptyHeap, h.heap.front, hm]
  case succ rounds hi =>
    cases hm : t.heap.front?
    case none =>
      refine ⟨d, ?_, by rwa [PairingHeap.members_eq_nil.mpr hm]⟩
      simp [TimerData.emptyHeap, h.popHeap_none hm]
    case some s =>
      have hs := PairingHeap.front_mem hm
      have hc := (ht.of_mem_heap hs)
      have hl := ht.length_releaseSlot_heap stages hs
      rw [← hl]
      obtain ⟨d', he, h'⟩ := h.popHeap_some ht hm hf
      have h₁ : d'.Refines (t.erase s) := by rwa [Timers.erase, if_pos hc.2]
      obtain ⟨d'', hd'', h''⟩ := hi (h₁.releaseSlot stages) (ht.releaseSlot hc.1)
        (by omega) (by omega)
      refine ⟨d'', ?_, by simpa [Timers.emptyHeap, hm] using h''⟩
      simpa [TimerData.emptyHeap, he] using hd''

theorem emptyInactive {rounds : Nat} (h : d.Refines t) (stages : Bool) (ht : t.WellFormed)
    (hr : t.inactive.length ≤ rounds) :
    ∃ d', TimerData.emptyInactive stages rounds d = some d' ∧
      d'.Refines (Timers.emptyInactive stages t.inactive.length t) := by
  induction rounds generalizing d t
  case zero =>
    have hl : t.inactive = [] := List.eq_nil_of_length_eq_zero (by omega)
    refine ⟨d, ?_, by rwa [hl]⟩
    simp [TimerData.emptyInactive, h.head, hl]
  case succ rounds hi =>
    cases hi' : t.inactive
    case nil =>
      exact ⟨d, by simp [TimerData.emptyInactive, h.head, hi'], h⟩
    case cons s l =>
      have hs : s ∈ t.inactive := hi' ▸ List.mem_cons_self
      have hc := ht.of_mem_inactive hs
      have hl := ht.inactive_releaseSlot stages hi'
      have h₁ : (d.eraseInactive s).Refines (t.erase s) := by
        rw [Timers.erase, if_neg (by simp [hc.2])]
        exact h.eraseInactive hs hc.2 ht.apart
      obtain ⟨d'', hd'', h''⟩ := hi (h₁.releaseSlot stages) (ht.releaseSlot hc.1)
        (by rw [hl]; simpa [hi'] using hr)
      refine ⟨d'', ?_, by simpa [Timers.emptyInactive, hi', hl] using h''⟩
      simpa [TimerData.emptyInactive, h.head, hi'] using hd''

theorem releaseAll (h : d.Refines t) (stages : Bool) (ht : t.WellFormed)
    (hf : t.heap.members.length + t.inactive.length ≤ fuel) :
    ∃ d', d.releaseAll fuel stages = some d' ∧ d'.Refines (t.releaseAll stages) := by
  have hh : t.heap.members.length ≤ fuel := by omega
  have ⟨d', he, h'⟩ := h.emptyHeap stages ht hh hh
  have hi : (Timers.emptyHeap stages t.heap.members.length t).inactive.length ≤ fuel := by
    rw [ht.inactive_emptyHeap]
    omega
  have ⟨d'', he', h''⟩ := h'.emptyInactive stages ht.emptyHeap hi
  exact ⟨d'', by simp [TimerData.releaseAll, he, he'], h''⟩

theorem clear (h : d.Refines t) (ht : t.WellFormed)
    (hf : t.heap.members.length + t.inactive.length ≤ fuel) :
    ∃ d', d.clear fuel = some d' ∧ d'.Refines t.clear := by
  have ⟨d', he, h'⟩ := h.releaseAll false ht hf
  exact ⟨{ d' with ready := [] }, by simp [TimerData.clear, he], h'.clearReady⟩

end Refines

end TimerData
end Bnio.Posix
