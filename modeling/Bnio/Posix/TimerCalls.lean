import Bnio.Posix.TimerRefinement
import Bnio.Posix.TimerWaits

namespace Bnio.Posix

-- The calls that change the slots: those of a `steady_timer`, and the abort of `stop`.
inductive SlotCall
  | register (s : SlotId)
  | unregister (s : SlotId)
  | cancel (s : SlotId)
  | expiresAt (s : SlotId) (expiry : TimePoint)
  | moveConstruct (s other : SlotId)
  | moveAssign (s other : SlotId)
  | abort
  deriving DecidableEq, Repr

-- The slots a call names exist, and a timer is constructed where there is none and not from itself.
def SlotCall.Fits (n : Nat) (context : SlotId → Option Owner) : SlotCall → Prop
  | .register s | .unregister s | .cancel s | .expiresAt s _ => s < n
  | .moveConstruct s other => s < n ∧ other < n ∧ context s = none ∧ s ≠ other
  | .moveAssign s other    => s < n ∧ other < n
  | .abort                 => True

instance {n : Nat} {context : SlotId → Option Owner} {c : SlotCall} : Decidable (c.Fits n context) := by
  cases c <;> unfold SlotCall.Fits <;> infer_instance

-- The slots whose waits a call cancels.
def SlotCall.Cancels (s : SlotId) : SlotCall → Prop
  | .register _                                    => False
  | .unregister r | .cancel r | .expiresAt r _     => s = r
  | .moveConstruct _ other                         => s = other
  | .moveAssign r other                            => s = r ∨ s = other
  | .abort                                         => True

namespace TimerData

variable (d : TimerData) (fuel now : Nat)

def context (s : SlotId) : Option Owner :=
  (d.slots s).context

def expiresAt (s : SlotId) (expiry : TimePoint) : Option (TimerData × Nat) :=
  if (d.slots s).context = none then some (d.setSlot s { d.slots s with expiry }, 0)
  else (d.setTimerExpiryLocked fuel s expiry now).map fun r => (r.1, r.2.1)

def transferFrom (s other : SlotId) : Option TimerData :=
  if (d.slots other).context = none then some d
  else do
    let expiry := d.expiry other
    let (d, _) ← d.unregisterTimerLocked fuel other
    let d := d.setSlot s { d.slots s with expiry }
    some (d.registerTimerLocked s now).1

-- The slot is part of the timer that comes into being.
def moveConstruct (s other : SlotId) : Option TimerData :=
  { d.setSlot s {} with links := d.links.clear s }.transferFrom fuel now s other

def moveAssign (s other : SlotId) : Option TimerData :=
  if s = other then some d
  else do
    let (d, _) ← if (d.slots s).context ≠ none then d.unregisterTimerLocked fuel s else some (d, false)
    d.transferFrom fuel now s other

-- The number is what the call returns, if it returns one.
def call : SlotCall → Option (TimerData × Nat)
  | .register s            => some ((d.registerTimerLocked s now).1, 0)
  | .unregister s          => (d.unregisterTimerLocked fuel s).map (·.1, 0)
  | .cancel s              => some ((d.cancelTimerLocked s).1, (d.cancelTimerLocked s).2.1)
  | .expiresAt s e         => d.expiresAt fuel now s e
  | .moveConstruct s other => (d.moveConstruct fuel now s other).map (·, 0)
  | .moveAssign s other    => (d.moveAssign fuel now s other).map (·, 0)
  | .abort                 => (d.abortPendingTimerWaits fuel).map (·, 0)

end TimerData

namespace Timers

variable (t : Timers) (now : Nat)

def context (s : SlotId) : Option Owner :=
  (t.slots s).context

def expiresAt (s : SlotId) (expiry : TimePoint) : Timers × Nat :=
  if (t.slots s).context = none then (t.setSlot s { t.slots s with expiry }, 0)
  else ((t.setTimerExpiryLocked s expiry now).1, (t.setTimerExpiryLocked s expiry now).2.1)

def transferFrom (s other : SlotId) : Timers :=
  if (t.slots other).context = none then t
  else
    let expiry := t.expiry other
    let t := (t.unregisterTimerLocked other).1
    let t := t.setSlot s { t.slots s with expiry }
    (t.registerTimerLocked s now).1

def moveConstruct (s other : SlotId) : Timers :=
  (t.setSlot s {}).transferFrom now s other

def moveAssign (s other : SlotId) : Timers :=
  if s = other then t
  else
    let t := if (t.slots s).context ≠ none then (t.unregisterTimerLocked s).1 else t
    t.transferFrom now s other

def call : SlotCall → Timers × Nat
  | .register s            => ((t.registerTimerLocked s now).1, 0)
  | .unregister s          => ((t.unregisterTimerLocked s).1, 0)
  | .cancel s              => ((t.cancelTimerLocked s).1, (t.cancelTimerLocked s).2.1)
  | .expiresAt s e         => t.expiresAt now s e
  | .moveConstruct s other => (t.moveConstruct now s other, 0)
  | .moveAssign s other    => (t.moveAssign now s other, 0)
  | .abort                 => (t.abortPendingTimerWaits, 0)

end Timers

namespace Timers

variable {t t' : Timers} {s r other : SlotId} {v : Slot} {op : OpId} {kind : CompletionKind}
variable {n now reading : Nat} {c : SlotCall}

-- All timers are among the first `n` slots and belong to this context, and the inactive ones have
-- expired.
structure Bound (n now : Nat) (t : Timers) : Prop where
  context : ∀ r, (t.slots r).context = none ∨ (t.slots r).context = some .this ∧ r < n
  expired : ∀ r ∈ t.inactive, t.expiry r ≤ now

theorem bound_init : ({} : Timers).Bound n now :=
  ⟨fun _ => .inl rfl, nofun⟩

namespace Bound

theorem this (h : t.Bound n now) (hc : (t.slots r).context ≠ none) : (t.slots r).context = some .this :=
  ((h.context r).resolve_left hc).1

theorem later {now' : Nat} (h : t.Bound n now) (hn : now ≤ now') : t.Bound n now' :=
  ⟨h.context, fun r hr => (h.expired r hr).trans (WithTop.coe_le_coe.mpr hn)⟩

theorem setSlot (h : t.Bound n now) (hv : v.context = none ∨ v.context = some .this ∧ s < n)
    (hs : s ∉ t.inactive) : (t.setSlot s v).Bound n now where
  context r := by
    by_cases hr : r = s
    case pos => subst hr; simpa using hv
    case neg => simpa [setSlot_of_ne hr] using h.context r
  expired r hr := by
    have hne : r ≠ s := ne_of_mem_of_not_mem hr hs
    simpa [expiry, setSlot_of_ne hne] using h.expired r hr

-- A change of the containers and of what the slots have submitted.
theorem congr (h : t.Bound n now)
    (hs : ∀ r, (t'.slots r).context = (t.slots r).context ∧ (t'.slots r).expiry = (t.slots r).expiry)
    (hi : ∀ r ∈ t'.inactive, r ∈ t.inactive ∨ t.expiry r ≤ now) : t'.Bound n now where
  context r    := by simpa [(hs r).1] using h.context r
  expired r hr := by
    rw [expiry, (hs r).2]
    exact (hi r hr).elim (h.expired r) id

theorem erase (h : t.Bound n now) : (t.erase s).Bound n now := by
  refine h.congr (fun r => ?_) fun r hr => .inl ?_
  · by_cases hr : r = s
    case pos => subst hr; simp [erase_slots]
    case neg => simp [erase_slots, hr]
  · unfold Timers.erase eraseInactive eraseHeap at hr
    grind [setSlot_inactive, List.mem_of_mem_erase]

-- A clock reading may be old when it is used.
theorem insert (h : t.Bound n now) (hle : reading ≤ now) : (t.insert s reading).Bound n now := by
  unfold Timers.insert
  split
  case isTrue =>
    refine h.congr (fun r => ?_) fun r hr => .inl ?_
    · unfold pushHeap
      split
      case isTrue  => exact ⟨rfl, rfl⟩
      case isFalse =>
        by_cases hr : r = s
        case pos => subst hr; simp
        case neg => simp [setSlot_of_ne hr]
    · unfold pushHeap at hr
      split at hr <;> exact hr
  case isFalse hn =>
    refine h.congr (fun r => ?_) fun r hr => ?_
    · unfold pushInactive
      split <;> exact ⟨rfl, rfl⟩
    · unfold pushInactive at hr
      split at hr
      · exact .inl hr
      · rcases List.mem_cons.mp hr with rfl | hr
        · exact .inr ((not_lt.mp hn).trans (WithTop.coe_le_coe.mpr hle))
        · exact .inl hr

theorem enqueue {ops : List OpId} (h : t.Bound n now) :
    (t.enqueueTimerOperations ops kind).Bound n now :=
  h.congr (fun _ => ⟨rfl, rfl⟩) fun _ => .inl

theorem setSubmitted {ops : List OpId} (h : t.Bound n now) :
    (t.setSlot s { t.slots s with submitted := ops }).Bound n now := by
  refine h.congr (fun r => ?_) fun _ => .inl
  by_cases hr : r = s
  case pos => subst hr; simp
  case neg => simp [setSlot_of_ne hr]

theorem stageSubmitted (h : t.Bound n now) : (t.stageSubmitted s kind).Bound n now :=
  h.setSubmitted.enqueue

theorem registerTimerLocked (h : t.Bound n now) (hr : reading ≤ now) (ht : t.WellFormed)
    (hs : s < n) : (t.registerTimerLocked s reading).1.Bound n now := by
  unfold Timers.registerTimerLocked
  split
  case isTrue     => exact h
  case isFalse hc =>
    have hl := ht.loose (not_not.mp hc)
    exact (h.setSlot (.inr ⟨rfl, hs⟩) hl.not_mem_inactive).insert hr

theorem unregisterTimerLocked (h : t.Bound n now) (ht : t.WellFormed) :
    (t.unregisterTimerLocked s).1.Bound n now := by
  unfold Timers.unregisterTimerLocked
  split
  case isTrue     => exact h
  case isFalse hc =>
    have hl := ht.erase (not_not.mp hc)
    exact Bound.stageSubmitted <| h.erase.setSlot (.inl rfl) hl.not_mem_inactive

theorem cancelTimerLocked (h : t.Bound n now) : (t.cancelTimerLocked s).1.Bound n now := by
  unfold Timers.cancelTimerLocked
  split
  · exact h
  · exact h.stageSubmitted

theorem setTimerExpiryLocked {e : TimePoint} (h : t.Bound n now) (hr : reading ≤ now)
    (ht : t.WellFormed) : (t.setTimerExpiryLocked s e reading).1.Bound n now := by
  unfold Timers.setTimerExpiryLocked
  split
  case isTrue     => exact h
  case isFalse hc =>
    have hl := ht.erase (not_not.mp hc)
    refine (Bound.stageSubmitted <| h.erase.setSlot ?_ hl.not_mem_inactive).insert hr
    simpa [erase_slots] using h.context s

theorem startTimerWaitLocked (h : t.Bound n now) : (t.startTimerWaitLocked op s).1.Bound n now := by
  unfold Timers.startTimerWaitLocked
  split
  · exact h.enqueue
  · split
    · exact h.enqueue
    · exact h.setSubmitted

theorem expire (h : t.Bound n now) (hs : t.expiry s ≤ now) : (t.expire s).Bound n now := by
  have he : (t.eraseHeap s).Bound n now := by
    refine h.congr (fun r => ?_) fun r hr => .inl (by rwa [inactive_eraseHeap] at hr)
    by_cases hr : r = s
    case pos => subst hr; simp [eraseHeap_slots]
    case neg => simp [eraseHeap_slots, hr]
  have hx : ((t.eraseHeap s).stageSubmitted s .value).expiry s ≤ now := by
    simpa [expiry, eraseHeap_slots] using hs
  have hi : (((t.eraseHeap s).stageSubmitted s .value).insert s now).Bound n now :=
    he.stageSubmitted.insert le_rfl
  rwa [Timers.insert, if_neg (not_lt.mpr hx)] at hi

theorem drainExpired (rounds : Nat) (h : t.Bound n now) :
    (Timers.drainExpired now rounds t).Bound n now := by
  induction rounds generalizing t
  case zero           => exact h
  case succ rounds hi =>
    unfold Timers.drainExpired
    split
    case h_2 => exact h
    case h_1 =>
      split
      case isTrue hs => exact hi (h.expire hs)
      case isFalse   => exact h

theorem fetchTimeoutOperations (h : t.Bound n now) :
    (t.fetchTimeoutOperations now).1.Bound n now :=
  (h.drainExpired t.heap.members.length).congr (fun _ => ⟨rfl, rfl⟩) fun _ => .inl

theorem releaseSlot {stages : Bool} (h : t.Bound n now) (ht : t.WellFormed)
    (hc : (t.slots s).context = some .this) : (t.releaseSlot stages s).Bound n now := by
  have hl := ht.erase hc
  have hs : ((t.erase s).setSlot s
      { (t.erase s).slots s with context := none, submitted := [] }).Bound n now :=
    h.erase.setSlot (.inl rfl) hl.not_mem_inactive
  unfold Timers.releaseSlot
  split
  · exact hs.enqueue
  · exact hs

theorem emptyHeap {stages : Bool} {rounds : Nat} (h : t.Bound n now) (ht : t.WellFormed) :
    (Timers.emptyHeap stages rounds t).Bound n now := by
  induction rounds generalizing t
  case zero           => exact h
  case succ rounds hi =>
    unfold Timers.emptyHeap
    split
    case h_2      => exact h
    case h_1 s hs =>
      have hc := (ht.of_mem_heap (PairingHeap.front_mem hs)).1
      exact hi (h.releaseSlot ht hc) (ht.releaseSlot hc)

theorem emptyInactive {stages : Bool} {rounds : Nat} (h : t.Bound n now) (ht : t.WellFormed) :
    (Timers.emptyInactive stages rounds t).Bound n now := by
  induction rounds generalizing t
  case zero           => exact h
  case succ rounds hi =>
    unfold Timers.emptyInactive
    split
    case h_2        => exact h
    case h_1 s l hs =>
      have hc := (ht.of_mem_inactive (hs ▸ List.mem_cons_self)).1
      exact hi (h.releaseSlot ht hc) (ht.releaseSlot hc)

theorem releaseAll {stages : Bool} (h : t.Bound n now) (ht : t.WellFormed) :
    (t.releaseAll stages).Bound n now :=
  (h.emptyHeap ht).emptyInactive ht.emptyHeap

theorem clear (h : t.Bound n now) (ht : t.WellFormed) : t.clear.Bound n now :=
  (h.releaseAll ht).congr (fun _ => ⟨rfl, rfl⟩) fun _ => .inl

-- The containers hold no more slots than there are.
theorem length_le (h : t.Bound n now) (ht : t.WellFormed) :
    t.heap.members.length + t.inactive.length ≤ n := by
  have hs : t.heap.members ++ t.inactive ⊆ List.range n := fun r hr => by
    have hc : (t.slots r).context = some .this := by
      rcases List.mem_append.mp hr with hr | hr
      · exact (ht.of_mem_heap hr).1
      · exact (ht.of_mem_inactive hr).1
    exact List.mem_range.mpr ((h.context r).resolve_left (by simp [hc])).2
  simpa using (List.subperm_of_subset ht.apart.nodup hs).length_le

end Bound

-- Writing the expiry of a slot that is not registered.
theorem WellFormed.setExpiry {e : TimePoint} (h : t.WellFormed) (hc : (t.slots s).context = none) :
    (t.setSlot s { t.slots s with expiry := e }).WellFormed :=
  h.foreign (by simp [hc]) (by simp [hc]) fun _ =>
    ⟨(h.slot s).unregistered hc, (h.slot s).submitted (by simp [hc]) ((h.slot s).unregistered hc)⟩

-- What a call keeps, whatever the call is.
structure Keeps (n now : Nat) (t t' : Timers) : Prop where
  wellFormed : t'.WellFormed
  bound      : t'.Bound n now
  waits      : t'.waits.Perm t.waits

namespace Keeps

theorem rfl (ht : t.WellFormed) (h : t.Bound n now) : Keeps n now t t :=
  ⟨ht, h, .refl _⟩

theorem trans {t'' : Timers} (h : Keeps n now t t') (h' : Keeps n now t' t'') : Keeps n now t t'' :=
  ⟨h'.wellFormed, h'.bound, h'.waits.trans h.waits⟩

end Keeps

-- The slot is replaced by one that is not registered either.
theorem keeps_setSlot (ht : t.WellFormed) (h : t.Bound n now) (hc : (t.slots s).context = none)
    (hv : v.context = none) (ha : v.active = false) (hs : v.submitted = []) :
    Keeps n now t (t.setSlot s v) where
  wellFormed := ht.foreign (by simp [hc]) (by simp [hv]) fun _ => ⟨ha, hs⟩
  bound      := h.setSlot (.inl hv) (ht.loose hc).not_mem_inactive
  waits      := .of_eq (waits_setSlot (ht.loose hc).not_mem_heap)

theorem keeps_setExpiry {e : TimePoint} (ht : t.WellFormed) (h : t.Bound n now)
    (hc : (t.slots s).context = none) :
    Keeps n now t (t.setSlot s { t.slots s with expiry := e }) :=
  have ha := (ht.slot s).unregistered hc
  keeps_setSlot ht h hc hc ha ((ht.slot s).submitted (by simp [hc]) ha)

theorem keeps_registerTimerLocked (ht : t.WellFormed) (h : t.Bound n now) (hr : reading ≤ now)
    (hs : s < n) : Keeps n now t (t.registerTimerLocked s reading).1 :=
  ⟨ht.registerTimerLocked, h.registerTimerLocked hr ht hs, ht.waits_registerTimerLocked⟩

theorem keeps_unregisterTimerLocked (ht : t.WellFormed) (h : t.Bound n now) :
    Keeps n now t (t.unregisterTimerLocked s).1 :=
  ⟨ht.unregisterTimerLocked, h.unregisterTimerLocked ht, ht.waits_unregisterTimerLocked⟩

theorem keeps_expiresAt {e : TimePoint} (ht : t.WellFormed) (h : t.Bound n now)
    (hr : reading ≤ now) : Keeps n now t (t.expiresAt reading s e).1 := by
  unfold expiresAt
  split
  case isTrue hc => exact keeps_setExpiry ht h hc
  case isFalse   =>
    exact ⟨ht.setTimerExpiryLocked, h.setTimerExpiryLocked hr ht, ht.waits_setTimerExpiryLocked⟩

-- An unregistered slot stays so while another one is unregistered.
theorem context_unregisterTimerLocked (hr : r ≠ s) :
    ((t.unregisterTimerLocked s).1.slots r).context = (t.slots r).context := by
  unfold unregisterTimerLocked
  split
  · rfl
  · simp [hr, setSlot, erase_slots]

theorem context_unregisterTimerLocked_self (h : t.Bound n now) :
    ((t.unregisterTimerLocked s).1.slots s).context = none := by
  unfold unregisterTimerLocked
  split
  case isTrue hc => exact (h.context s).resolve_right (hc ·.1)
  case isFalse   => simp

theorem keeps_transferFrom (ht : t.WellFormed) (h : t.Bound n now) (hr : reading ≤ now) (hs : s < n)
    (hne : s ≠ other) (hc : (t.slots s).context = none) :
    Keeps n now t (t.transferFrom reading s other) := by
  unfold transferFrom
  split
  case isTrue  => exact .rfl ht h
  case isFalse =>
    have hu := keeps_unregisterTimerLocked (s := other) ht h
    have hc : ((t.unregisterTimerLocked other).1.slots s).context = none := by
      rwa [context_unregisterTimerLocked hne]
    have hx := keeps_setExpiry (e := t.expiry other) hu.wellFormed hu.bound hc
    exact (hu.trans hx).trans (keeps_registerTimerLocked hx.wellFormed hx.bound hr hs)

theorem keeps_moveConstruct (ht : t.WellFormed) (h : t.Bound n now) (hr : reading ≤ now) (hs : s < n)
    (hne : s ≠ other) (hc : (t.slots s).context = none) :
    Keeps n now t (t.moveConstruct reading s other) :=
  have hk := keeps_setSlot (v := {}) ht h hc rfl rfl rfl
  hk.trans <| keeps_transferFrom hk.wellFormed hk.bound hr hs hne (by simp)

theorem keeps_moveAssign (ht : t.WellFormed) (h : t.Bound n now) (hr : reading ≤ now) (hs : s < n) :
    Keeps n now t (t.moveAssign reading s other) := by
  by_cases hne : s = other
  case pos => simpa [moveAssign, hne] using Keeps.rfl ht h
  case neg =>
    rw [moveAssign, if_neg hne]
    split
    case isTrue     =>
      have hu := keeps_unregisterTimerLocked (s := s) ht h
      exact hu.trans <| keeps_transferFrom hu.wellFormed hu.bound hr hs hne
        (context_unregisterTimerLocked_self h)
    case isFalse hc => exact keeps_transferFrom ht h hr hs hne (not_not.mp hc)

theorem keeps_call (ht : t.WellFormed) (h : t.Bound n now) (hr : reading ≤ now)
    (hf : c.Fits n t.context) : Keeps n now t (t.call reading c).1 := by
  cases c
  case register      => exact keeps_registerTimerLocked ht h hr hf
  case unregister    => exact keeps_unregisterTimerLocked ht h
  case cancel        => exact ⟨ht.cancelTimerLocked, h.cancelTimerLocked, ht.waits_cancelTimerLocked⟩
  case expiresAt     => exact keeps_expiresAt ht h hr
  case moveConstruct => exact keeps_moveConstruct ht h hr hf.1 hf.2.2.2 hf.2.2.1
  case moveAssign    => exact keeps_moveAssign ht h hr hf.1
  case abort         => exact ⟨ht.releaseAll, h.releaseAll ht, ht.waits_abortPendingTimerWaits⟩

-- What is staged between two states: waits of the slots in `P`, all with one kind.
def Stages (P : SlotId → Prop) (kind : CompletionKind) (t t' : Timers) : Prop :=
  ∃ l, t'.ready = l ++ t.ready ∧
    ∀ x ∈ l, x.kind = kind ∧ ∃ s, P s ∧ x.op ∈ (t.slots s).submitted

namespace Stages

variable {P Q : SlotId → Prop}

theorem of_eq (h : t'.ready = t.ready) : Stages P kind t t' :=
  ⟨[], h, by simp⟩

theorem of_submitted (hs : P s)
    (h : t'.ready = ((t.slots s).submitted.map (Staged.mk · kind)).reverse ++ t.ready) :
    Stages P kind t t' :=
  ⟨_, h, by simpa using fun op hop => ⟨s, hs, hop⟩⟩

theorem trans {t'' : Timers} (h : Stages P kind t t') (h' : Stages Q kind t' t'')
    (hs : ∀ s, Q s → P s ∧ (t'.slots s).submitted ⊆ (t.slots s).submitted) : Stages P kind t t'' := by
  have ⟨l, hr, hl⟩ := h
  have ⟨l', hr', hl'⟩ := h'
  refine ⟨l' ++ l, by rw [hr', hr, List.append_assoc], fun x hx => ?_⟩
  rcases List.mem_append.mp hx with hx | hx
  · have ⟨hk, s, hq, hop⟩ := hl' x hx
    exact ⟨hk, s, (hs s hq).1, (hs s hq).2 hop⟩
  · exact hl x hx

theorem subset (h : Stages P kind t t') : t.ready ⊆ t'.ready :=
  have ⟨_, hr, _⟩ := h
  hr ▸ List.subset_append_right _ _

end Stages

theorem unregisterTimerLocked_ready (hc : (t.slots s).context = some .this) :
    (t.unregisterTimerLocked s).1.ready =
      ((t.slots s).submitted.map (Staged.mk · .canceled)).reverse ++ t.ready := by
  simp only [unregisterTimerLocked, hc, ne_eq, not_true_eq_false, if_false, stageSubmitted,
    enqueueTimerOperations_ready, setSlot_ready, erase_ready, setSlot_self, erase_slots,
    Function.update_self]

theorem unregisterTimerLocked_submitted :
    ((t.unregisterTimerLocked s).1.slots r).submitted ⊆ (t.slots r).submitted := by
  unfold unregisterTimerLocked
  split
  · exact List.Subset.refl _
  · by_cases hr : r = s
    case pos => subst hr; simp
    case neg => simp [hr, setSlot, erase_slots]

theorem stages_unregisterTimerLocked {P : SlotId → Prop} (hs : P s) :
    Stages P .canceled t (t.unregisterTimerLocked s).1 := by
  by_cases hc : (t.slots s).context = some .this
  case pos => exact .of_submitted hs (unregisterTimerLocked_ready hc)
  case neg => exact .of_eq (by simp [unregisterTimerLocked, hc])

theorem registerTimerLocked_ready : (t.registerTimerLocked s now).1.ready = t.ready := by
  unfold registerTimerLocked
  split
  · rfl
  · exact insert_ready

theorem cancelTimerLocked_ready (hc : (t.slots s).context = some .this) :
    (t.cancelTimerLocked s).1.ready =
      ((t.slots s).submitted.map (Staged.mk · .canceled)).reverse ++ t.ready := by
  simp only [cancelTimerLocked, hc, ne_eq, not_true_eq_false, if_false, stageSubmitted,
    enqueueTimerOperations_ready, setSlot_ready]

theorem setTimerExpiryLocked_ready {e : TimePoint} (hc : (t.slots s).context = some .this) :
    (t.setTimerExpiryLocked s e now).1.ready =
      ((t.slots s).submitted.map (Staged.mk · .canceled)).reverse ++ t.ready := by
  simp only [setTimerExpiryLocked, hc, ne_eq, not_true_eq_false, if_false, insert_ready, stageSubmitted,
    enqueueTimerOperations_ready, setSlot_ready, erase_ready, setSlot_self, erase_slots,
    Function.update_self]

theorem stages_transferFrom {P : SlotId → Prop} (hs : P other) :
    Stages P .canceled t (t.transferFrom now s other) := by
  unfold transferFrom
  split
  · exact .of_eq rfl
  · have ⟨l, hr, hl⟩ : Stages P .canceled t (t.unregisterTimerLocked other).1 :=
      stages_unregisterTimerLocked hs
    exact ⟨l, registerTimerLocked_ready.trans hr, hl⟩

theorem releaseSlot_ready :
    (t.releaseSlot true s).ready =
      ((t.slots s).submitted.map (Staged.mk · .canceled)).reverse ++ t.ready := by
  simp only [releaseSlot, if_true, enqueueTimerOperations_ready, setSlot_ready, erase_ready]

theorem releaseSlot_submitted {stages : Bool} :
    ((t.releaseSlot stages s).slots r).submitted ⊆ (t.slots r).submitted := by
  have h : (t.releaseSlot stages s).slots = ((t.erase s).setSlot s
      { (t.erase s).slots s with context := none, submitted := [] }).slots := by
    cases stages <;> rfl
  rw [h]
  by_cases hr : r = s
  case pos => subst hr; simp
  case neg => simp [hr, setSlot, erase_slots]

theorem stages_emptyHeap {rounds : Nat} :
    Stages (fun _ => True) .canceled t (emptyHeap true rounds t) := by
  induction rounds generalizing t
  case zero           => exact .of_eq rfl
  case succ rounds hi =>
    unfold emptyHeap
    split
    case h_2 => exact .of_eq rfl
    case h_1 =>
      exact (Stages.of_submitted trivial releaseSlot_ready).trans hi fun _ _ =>
        ⟨trivial, releaseSlot_submitted⟩

theorem stages_emptyInactive {rounds : Nat} :
    Stages (fun _ => True) .canceled t (emptyInactive true rounds t) := by
  induction rounds generalizing t
  case zero           => exact .of_eq rfl
  case succ rounds hi =>
    unfold emptyInactive
    split
    case h_2 => exact .of_eq rfl
    case h_1 =>
      exact (Stages.of_submitted trivial releaseSlot_ready).trans hi fun _ _ =>
        ⟨trivial, releaseSlot_submitted⟩

theorem emptyHeap_submitted {stages : Bool} {rounds : Nat} :
    ((emptyHeap stages rounds t).slots r).submitted ⊆ (t.slots r).submitted := by
  induction rounds generalizing t
  case zero           => exact List.Subset.refl _
  case succ rounds hi =>
    unfold emptyHeap
    split
    case h_2 => exact List.Subset.refl _
    case h_1 => exact List.Subset.trans hi releaseSlot_submitted

theorem stages_call : Stages c.Cancels .canceled t (t.call now c).1 := by
  cases c
  case register     => exact .of_eq registerTimerLocked_ready
  case unregister s => exact stages_unregisterTimerLocked (P := (SlotCall.unregister s).Cancels) rfl
  case cancel s     =>
    by_cases hc : (t.slots s).context = some .this
    case pos => exact .of_submitted (by exact rfl) (cancelTimerLocked_ready hc)
    case neg => exact .of_eq (by simp [call, cancelTimerLocked, hc])
  case expiresAt s e =>
    by_cases hc : (t.slots s).context = none
    case pos => exact .of_eq (by simp [call, expiresAt, hc])
    case neg =>
      by_cases hc' : (t.slots s).context = some .this
      case pos =>
        refine .of_submitted (s := s) rfl ?_
        simp only [call, expiresAt, hc, if_false]
        exact setTimerExpiryLocked_ready hc'
      case neg => exact .of_eq (by simp [call, expiresAt, hc, setTimerExpiryLocked, hc'])
  case moveConstruct s other =>
    refine (Stages.of_eq rfl : Stages _ _ t (t.setSlot s {})).trans (stages_transferFrom (by exact rfl))
      fun r hr => ⟨hr, ?_⟩
    by_cases hrs : r = s
    case pos => subst hrs; simp
    case neg => simp [setSlot_of_ne hrs]
  case moveAssign s other    =>
    by_cases hne : s = other
    case pos => exact .of_eq (by simp [call, moveAssign, hne])
    case neg =>
      simp only [call, moveAssign, hne, if_false]
      split
      · exact (stages_unregisterTimerLocked (.inl rfl)).trans (stages_transferFrom (by exact .inr rfl))
          fun _ hr => ⟨hr, unregisterTimerLocked_submitted⟩
      · exact stages_transferFrom (.inr rfl)
  case abort                 =>
    exact stages_emptyHeap.trans stages_emptyInactive fun _ _ => ⟨trivial, emptyHeap_submitted⟩

theorem expire_ready :
    (t.expire s).ready = ((t.slots s).submitted.map (Staged.mk · .value)).reverse ++ t.ready := by
  have he : (t.eraseHeap s).ready = t.ready := by
    unfold eraseHeap
    split <;> rfl
  simp only [expire, pushInactive_ready, stageSubmitted, enqueueTimerOperations_ready, setSlot_ready,
    eraseHeap_slots, Function.update_self, he]

theorem expire_slots (r : SlotId) :
    ((t.expire s).slots r).submitted ⊆ (t.slots r).submitted ∧ (t.expire s).expiry r = t.expiry r := by
  have he : (t.expire s).slots = ((t.eraseHeap s).stageSubmitted s .value).slots := by
    unfold expire pushInactive
    split <;> rfl
  rw [expiry, he, stageSubmitted_slots, eraseHeap_slots]
  by_cases hr : r = s
  case pos => subst hr; simp [expiry]
  case neg => simp [hr, expiry]

theorem stages_drainExpired {rounds : Nat} :
    Stages (fun s => t.expiry s ≤ now) .value t (drainExpired now rounds t) := by
  induction rounds generalizing t
  case zero           => exact .of_eq rfl
  case succ rounds hi =>
    unfold drainExpired
    split
    case h_2 => exact .of_eq rfl
    case h_1 s _ =>
      split
      case isFalse  => exact .of_eq rfl
      case isTrue h =>
        exact (Stages.of_submitted (by exact h) expire_ready).trans hi fun r hr =>
          ⟨(expire_slots r).2 ▸ hr, (expire_slots r).1⟩

end Timers

namespace TimerData.Refines

variable {d : TimerData} {t : Timers} {s other : SlotId} {n now reading fuel : Nat} {c : SlotCall}

theorem expiresAt {e : TimePoint} (h : d.Refines t) (ht : t.WellFormed)
    (hf : t.heap.members.length ≤ fuel) :
    ∃ d', d.expiresAt fuel now s e = some (d', (t.expiresAt now s e).2) ∧
      d'.Refines (t.expiresAt now s e).1 := by
  unfold TimerData.expiresAt Timers.expiresAt
  rw [h.context s]
  split
  case isTrue  =>
    exact ⟨_, rfl, h.setSlot (by simp [TimerSlot.toSlot, ← h.slots s]) (h.size s)⟩
  case isFalse =>
    obtain ⟨d', he, h'⟩ := h.setTimerExpiryLocked (s := s) (e := e) now ht hf
    exact ⟨d', by simp [he], h'⟩

theorem transferFrom (now : Nat) (h : d.Refines t) (ht : t.WellFormed)
    (hf : t.heap.members.length ≤ fuel) (hne : s ≠ other) (hc : (t.slots s).context = none) :
    ∃ d', d.transferFrom fuel now s other = some d' ∧ d'.Refines (t.transferFrom now s other) := by
  unfold TimerData.transferFrom Timers.transferFrom
  rw [h.context other]
  split
  case isTrue  => exact ⟨d, rfl, h⟩
  case isFalse =>
    have ⟨d₁, he, h₁⟩ := h.unregisterTimerLocked (s := other) ht hf
    have hc : ((t.unregisterTimerLocked other).1.slots s).context = none := by
      rwa [Timers.context_unregisterTimerLocked hne]
    have h₂ := h₁.setSlot (s := s) (v := { d₁.slots s with expiry := d.expiry other })
      (u := { (t.unregisterTimerLocked other).1.slots s with expiry := t.expiry other })
      (by simp [TimerSlot.toSlot, ← h₁.slots s, h.expiry]) (h₁.size s)
    have h₃ := (h₂.registerTimerLocked (s := s) now (ht.unregisterTimerLocked.setExpiry hc)).1
    exact ⟨_, by simp [he], h₃⟩

theorem moveConstruct (now : Nat) (h : d.Refines t) (ht : t.WellFormed)
    (hf : t.heap.members.length ≤ fuel) (hne : s ≠ other) (hc : (t.slots s).context = none) :
    ∃ d', d.moveConstruct fuel now s other = some d' ∧
      d'.Refines (t.moveConstruct now s other) := by
  have hl := ht.loose hc
  have h₁ := (h.setSlot (s := s) (v := {}) (u := {}) rfl rfl).clearLinks hl.not_mem_heap
    hl.not_mem_inactive
  exact h₁.transferFrom now (ht.foreign (by simp [hc]) (by simp) (by simp)) hf hne (by simp)

theorem moveAssign (reading : Nat) (other : SlotId) (h : d.Refines t) (ht : t.WellFormed)
    (hb : t.Bound n now) (hf : t.heap.members.length ≤ n) :
    ∃ d', d.moveAssign n reading s other = some d' ∧
      d'.Refines (t.moveAssign reading s other) := by
  by_cases hne : s = other
  case pos => exact ⟨d, by simp [TimerData.moveAssign, hne], by simpa [Timers.moveAssign, hne] using h⟩
  case neg =>
    unfold TimerData.moveAssign Timers.moveAssign
    rw [if_neg hne, if_neg hne, h.context s]
    split
    case isTrue     =>
      have hu := Timers.keeps_unregisterTimerLocked (s := s) ht hb
      have hl := hu.bound.length_le hu.wellFormed
      have ⟨d₁, he, h₁⟩ := h.unregisterTimerLocked (s := s) ht hf
      have hle : (t.unregisterTimerLocked s).1.heap.members.length ≤ n := by omega
      have ⟨d₂, he', h₂⟩ := h₁.transferFrom reading hu.wellFormed hle hne
        (Timers.context_unregisterTimerLocked_self hb)
      exact ⟨d₂, by simp [he, he'], h₂⟩
    case isFalse hc => simpa using h.transferFrom reading ht hf hne (not_not.mp hc)

-- As many rounds as there are slots are enough for every call.
theorem call (reading : Nat) (h : d.Refines t) (ht : t.WellFormed) (hb : t.Bound n now)
    (hf : c.Fits n t.context) :
    ∃ d', d.call n reading c = some (d', (t.call reading c).2) ∧
      d'.Refines (t.call reading c).1 := by
  have hl := hb.length_le ht
  have hh : t.heap.members.length ≤ n := by omega
  cases c
  case register s   => exact ⟨_, rfl, (h.registerTimerLocked _ ht).1⟩
  case unregister s =>
    have ⟨d', he, h'⟩ := h.unregisterTimerLocked (s := s) ht hh
    exact ⟨d', by simp [TimerData.call, he, Timers.call], h'⟩
  case cancel s     =>
    have h' := h.cancelTimerLocked (s := s)
    exact ⟨_, by simp [TimerData.call, h'.2, Timers.call], h'.1⟩
  case expiresAt s e         => exact h.expiresAt ht hh
  case moveConstruct s other =>
    have ⟨d', he, h'⟩ := h.moveConstruct reading ht hh hf.2.2.2 hf.2.2.1
    exact ⟨d', by simp [TimerData.call, he, Timers.call], h'⟩
  case moveAssign s other    =>
    have ⟨d', he, h'⟩ := h.moveAssign (s := s) reading other ht hb hh
    exact ⟨d', by simp [TimerData.call, he, Timers.call], h'⟩
  case abort                 =>
    have ⟨d', he, h'⟩ := h.releaseAll true ht hl
    exact ⟨d', by simp [TimerData.call, TimerData.abortPendingTimerWaits, he, Timers.call], h'⟩

end TimerData.Refines

end Bnio.Posix
