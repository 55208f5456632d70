import Bnio.Lib.Transition
import Bnio.Posix.TimerRefinement

namespace Bnio.Posix

-- The heap of the timers by itself: its data, and the slots that have been pushed and not removed.
structure SlotHeap where
  data : TimerData := {}
  members : List SlotId := []

inductive HeapCall
  | push (s : SlotId)
  | pop
  | erase (s : SlotId)
  | setExpiry (s : SlotId) (expiry : TimePoint)
  deriving DecidableEq, Repr

namespace SlotHeap

variable (n : Nat) (h : SlotHeap)

-- There are `n` slots, and an expiry only changes outside of the heap.
def Allows : HeapCall → Prop
  | .push s | .erase s => s < n
  | .pop               => True
  | .setExpiry s _     => s ∉ h.members

instance {c : HeapCall} : Decidable (h.Allows n c) := by
  cases c <;> unfold Allows <;> infer_instance

def call : HeapCall → Option SlotHeap
  | .push s        =>
    some ⟨h.data.pushHeap s, if s ∈ h.members then h.members else s :: h.members⟩
  | .pop           => do
    let (data, popped) ← h.data.popHeap n
    some ⟨data, popped.elim h.members h.members.erase⟩
  | .erase s       => do
    let data ← h.data.eraseHeap n s
    some ⟨data, h.members.erase s⟩
  | .setExpiry s e => some { h with data := h.data.setSlot s { h.data.slots s with expiry := e } }

def step : System SlotHeap HeapCall := fun h c =>
  if h.Allows n c then h.call n c else none

-- `heap_deadline` is the first expiry.
structure Deadline : Prop where
  le   : ∀ s ∈ h.members, h.data.heapDeadline ≤ h.data.expiry s
  mem  : h.members ≠ [] → ∃ s ∈ h.members, h.data.heapDeadline = h.data.expiry s
  none : h.members = [] → h.data.heapDeadline = ⊤

variable {n} {h h' : SlotHeap} {c : HeapCall} {t : Timers}

-- The state refines `t`, whose inactive list is empty.
structure Inv (n : Nat) (h : SlotHeap) (t : Timers) : Prop where
  refines   : h.data.Refines t
  inactive  : t.inactive = []
  wellFormed : t.heap.WellFormed t.expiry
  nodup     : t.heap.members.Nodup
  members   : t.heap.members.Perm h.members
  active    : ∀ s, (t.slots s).active = true ↔ s ∈ t.heap.members
  bound     : ∀ s ∈ t.heap.members, s < n

namespace Inv

theorem init : Inv n {} {} where
  refines    := TimerData.refines_init
  inactive   := rfl
  wellFormed := PairingHeap.wellFormed_nil _
  nodup      := .nil
  members    := .refl _
  active _   := by simp [PairingHeap.members]
  bound _    := by simp [PairingHeap.members]

theorem apart (hi : h.Inv n t) : t.Apart where
  tree  := hi.wellFormed.tree
  nodup := by simpa [hi.inactive] using hi.nodup

theorem length_le (hi : h.Inv n t) : t.heap.members.length ≤ n := by
  have hs : t.heap.members ⊆ List.range n := fun s hs => List.mem_range.mpr (hi.bound s hs)
  simpa using (List.subperm_of_subset hi.nodup hs).length_le

theorem push {s : SlotId} (hi : h.Inv n t) (hs : s < n) :
    Inv n ⟨h.data.pushHeap s, if s ∈ h.members then h.members else s :: h.members⟩ (t.pushHeap s) := by
  by_cases hm : s ∈ t.heap.members
  case pos =>
    have ha := (hi.active s).mpr hm
    have hd : h.data.pushHeap s = h.data := by
      simp [TimerData.pushHeap, hi.refines.active s, ha]
    have ht : t.pushHeap s = t := by simp [Timers.pushHeap, ha]
    rw [hd, ht, if_pos (hi.members.mem_iff.mp hm)]
    exact hi
  case neg =>
    have ha : (t.slots s).active = false := by simpa using mt (hi.active s).mp hm
    have hr := hi.refines.pushHeap hi.apart hm (by simp [hi.inactive])
    rw [if_neg (mt hi.members.mem_iff.mpr hm)]
    -- The new flag changes no expiry.
    let t₁ := t.setSlot s { t.slots s with active := true }
    have ht : t.pushHeap s = { t₁ with heap := t.heap.push t₁.expiry s } := by
      simp [Timers.pushHeap, ha, t₁]
    have he : t₁.expiry = t.expiry := funext fun r => by
      by_cases hrs : r = s
      case pos => subst hrs; simp [t₁, Timers.expiry]
      case neg => simp [t₁, Timers.expiry, Timers.setSlot_of_ne hrs]
    rw [ht, he] at hr ⊢
    have hp := hi.wellFormed.push_members (a := s)
    refine ⟨hr, hi.inactive, ?_, ?_, hp.trans (hi.members.cons s), fun r => ?_, fun r hr => ?_⟩
    · exact (hi.wellFormed.push (a := s)).congr fun r _ => congrFun he r
    · exact hp.nodup_iff.mpr (List.nodup_cons.mpr ⟨hm, hi.nodup⟩)
    · rw [hp.mem_iff]
      by_cases hrs : r = s
      case pos => subst hrs; simp [t₁]
      case neg => simpa [t₁, Timers.setSlot_of_ne hrs, hrs] using hi.active r
    · rcases List.mem_cons.mp (hp.mem_iff.mp hr) with rfl | hr
      · exact hs
      · exact hi.bound r hr

theorem erase {s : SlotId} (hi : h.Inv n t) (hm : s ∈ t.heap.members) :
    ∃ data, h.data.eraseHeap n s = some data ∧ Inv n ⟨data, h.members.erase s⟩ (t.eraseHeap s) := by
  have ha := (hi.active s).mpr hm
  have ⟨data, he, hr⟩ := hi.refines.eraseHeap hi.apart hm ha hi.length_le
  refine ⟨data, he, ?_⟩
  have hp := hi.wellFormed.tree.erase_members t.expiry hm
  have hh : (t.eraseHeap s).heap = t.heap.erase t.expiry s := by simp [Timers.eraseHeap, ha]
  have hx : (t.eraseHeap s).expiry = t.expiry := funext fun r => by
    by_cases hrs : r = s
    case pos => subst hrs; simp [Timers.expiry, Timers.eraseHeap_slots]
    case neg => simp [Timers.expiry, Timers.eraseHeap_slots, hrs]
  have hnd := List.nodup_cons.mp (hp.nodup_iff.mp hi.nodup)
  refine ⟨hr, Timers.inactive_eraseHeap.trans hi.inactive, ?_, hh ▸ hnd.2, ?_, fun r => ?_,
    fun r hr => ?_⟩
  · rw [hh, hx]
    exact hi.wellFormed.erase
  · rw [hh]
    exact (List.cons_perm_iff_perm_erase.mp (hp.symm.trans hi.members)).2
  · rw [hh]
    by_cases hrs : r = s
    case pos => subst hrs; simp [Timers.eraseHeap_slots, hnd.1]
    case neg =>
      have hmem := hp.mem_iff (a := r)
      simp only [List.mem_cons, hrs, false_or] at hmem
      simpa [Timers.eraseHeap_slots, hrs, ← hmem] using hi.active r
  · exact hi.bound r (hp.mem_iff.mpr (List.mem_cons_of_mem _ (hh ▸ hr)))

theorem erase_of_not_mem {s : SlotId} (hi : h.Inv n t) (hm : s ∉ t.heap.members) :
    h.data.eraseHeap n s = some h.data := by
  have ha : (t.slots s).active = false := by simpa using mt (hi.active s).mp hm
  simp [TimerData.eraseHeap, hi.refines.active s, ha]

theorem setExpiry {s : SlotId} (hi : h.Inv n t) (hs : s ∉ h.members) (e : TimePoint) :
    Inv n { h with data := h.data.setSlot s { h.data.slots s with expiry := e } }
      (t.setSlot s { t.slots s with expiry := e }) := by
  have hm := mt hi.members.mem_iff.mp hs
  refine ⟨hi.refines.setSlot ?_ (hi.refines.size s), hi.inactive, ?_, hi.nodup, hi.members,
    fun r => ?_, hi.bound⟩
  · simp [TimerSlot.toSlot, ← hi.refines.slots s]
  · refine hi.wellFormed.congr fun r hr => ?_
    have hrs : r ≠ s := ne_of_mem_of_not_mem hr hm
    simp [Timers.expiry, Timers.setSlot_of_ne hrs]
  · by_cases hrs : r = s
    case pos => subst hrs; simpa using hi.active r
    case neg => simpa [Timers.setSlot_of_ne hrs] using hi.active r

-- What `pop_heap` does is what `erase_heap` does to the root.
theorem pop (hi : h.Inv n t) :
    (t.heap.front? = none ∧ h.data.popHeap n = some (h.data, none)) ∨
      ∃ s data, t.heap.front? = some s ∧ h.data.popHeap n = some (data, some s) ∧
        Inv n ⟨data, h.members.erase s⟩ (t.eraseHeap s) := by
  cases hf : t.heap.front?
  case none   => exact .inl ⟨rfl, by simp [TimerData.popHeap, hi.refines.heap.front, hf]⟩
  case some s =>
    obtain ⟨data, he, hi'⟩ := hi.erase (PairingHeap.front_mem hf)
    exact .inr ⟨s, data, rfl, by simp [TimerData.popHeap, hi.refines.heap.front, hf, he], hi'⟩

theorem call (hi : h.Inv n t) (ha : h.Allows n c) :
    ∃ h' t', h.call n c = some h' ∧ h'.Inv n t' := by
  cases c
  case push s        => exact ⟨_, _, rfl, hi.push ha⟩
  case setExpiry s e => exact ⟨_, _, rfl, hi.setExpiry ha e⟩
  case erase s       =>
    by_cases hm : s ∈ t.heap.members
    case pos =>
      have ⟨data, he, hi'⟩ := hi.erase hm
      exact ⟨_, _, by simp [SlotHeap.call, he], hi'⟩
    case neg =>
      have hs := mt hi.members.mem_iff.mpr hm
      refine ⟨h, t, ?_, hi⟩
      simp [SlotHeap.call, hi.erase_of_not_mem hm, List.erase_of_not_mem hs]
  case pop           =>
    rcases hi.pop with ⟨_, he⟩ | ⟨s, data, _, he, hi'⟩
    · exact ⟨h, t, by simp [SlotHeap.call, he], hi⟩
    · exact ⟨_, _, by simp [SlotHeap.call, he], hi'⟩

theorem deadline (hi : h.Inv n t) : h.Deadline := by
  have hd := hi.refines.heapDeadline
  have he := hi.refines.expiry
  have hle := (Timers.le_heapDeadline_iff hi.wellFormed).mp le_rfl
  refine ⟨fun s hs => ?_, fun hne => ?_, fun hn => ?_⟩
  · rw [hd, he]
    exact hle s (hi.members.mem_iff.mpr hs)
  · cases hf : t.heap.front?
    case none   =>
      have hm := PairingHeap.members_eq_nil.mpr hf
      exact absurd (hm ▸ hi.members).symm.eq_nil hne
    case some s =>
      refine ⟨s, hi.members.mem_iff.mp (PairingHeap.front_mem hf), ?_⟩
      rw [hd, he, Timers.heapDeadline, hf, Option.elim_some]
  · rw [hd]
    exact Timers.heapDeadline_eq_top hi.wellFormed (hn ▸ hi.members).eq_nil

end Inv

end SlotHeap
end Bnio.Posix
