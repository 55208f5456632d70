import Bnio.Posix.TimerFetch

namespace Bnio.Posix

open System

namespace SlotCall

-- The call is made on the timer of slot `i`, or moves from it.
def touches (i : SlotId) : SlotCall → Bool
  | .register s | .unregister s | .cancel s | .expiresAt s _ => s = i
  | .moveConstruct s other | .moveAssign s other             => s = i || other = i
  | .abort                                                   => false

-- The call changes the expiry of slot `i`.
def setsExpiry (i : SlotId) : SlotCall → Bool
  | .expiresAt s _ | .moveConstruct s _ | .moveAssign s _  => s = i
  | .register _ | .unregister _ | .cancel _ | .abort       => false

end SlotCall

def TimedAction.slotCall : TimedAction → Option SlotCall
  | .call c _ | .act (.call c) => some c
  | _                          => none

namespace Timers

variable {t t' : Timers} {s r other : SlotId} {v : Slot} {kind : CompletionKind} {now : Nat}

theorem insert_slots (h : r ≠ s) : (t.insert s now).slots r = t.slots r := by
  unfold Timers.insert pushHeap pushInactive
  split
  · split
    · rfl
    · exact setSlot_of_ne h
  · split <;> rfl

theorem insert_expiry : (t.insert s now).expiry r = t.expiry r := by
  by_cases h : r = s
  case neg => rw [expiry, insert_slots h, expiry]
  case pos =>
    subst h
    unfold Timers.insert pushHeap pushInactive
    split
    · split
      · rfl
      · simp [expiry]
    · split <;> rfl

theorem erase_slots_of_ne (h : r ≠ s) : (t.erase s).slots r = t.slots r := by
  rw [erase_slots, Function.update_of_ne h]

theorem erase_expiry : (t.erase s).expiry r = t.expiry r := by
  by_cases h : r = s
  case pos => subst h; simp [expiry, erase_slots]
  case neg => rw [expiry, erase_slots_of_ne h, expiry]

theorem stageSubmitted_expiry : (t.stageSubmitted s kind).expiry r = t.expiry r :=
  expiry_setSlot rfl

-- A call leaves the slots alone that it does not name.
theorem registerTimerLocked_slots (h : r ≠ s) : (t.registerTimerLocked s now).1.slots r = t.slots r := by
  unfold Timers.registerTimerLocked
  split
  · rfl
  · exact (insert_slots h).trans (setSlot_of_ne h)

theorem unregisterTimerLocked_slots (h : r ≠ s) : (t.unregisterTimerLocked s).1.slots r = t.slots r := by
  unfold Timers.unregisterTimerLocked
  split
  · rfl
  · exact ((setSlot_of_ne h).trans (setSlot_of_ne h)).trans (erase_slots_of_ne h)

theorem cancelTimerLocked_slots (h : r ≠ s) : (t.cancelTimerLocked s).1.slots r = t.slots r := by
  unfold Timers.cancelTimerLocked
  split
  · rfl
  · exact setSlot_of_ne h

theorem setTimerExpiryLocked_slots {e : TimePoint} (h : r ≠ s) :
    (t.setTimerExpiryLocked s e now).1.slots r = t.slots r := by
  unfold Timers.setTimerExpiryLocked
  split
  · rfl
  · exact (insert_slots h).trans <|
      ((setSlot_of_ne h).trans (setSlot_of_ne h)).trans (erase_slots_of_ne h)

theorem expiresAt_slots {e : TimePoint} (h : r ≠ s) : (t.expiresAt now s e).1.slots r = t.slots r := by
  unfold Timers.expiresAt
  split
  · exact setSlot_of_ne h
  · exact setTimerExpiryLocked_slots h

theorem transferFrom_slots (h : r ≠ s) (h' : r ≠ other) :
    (t.transferFrom now s other).slots r = t.slots r := by
  unfold Timers.transferFrom
  split
  · rfl
  · exact ((registerTimerLocked_slots h).trans (setSlot_of_ne h)).trans (unregisterTimerLocked_slots h')

theorem moveAssign_slots (h : r ≠ s) (h' : r ≠ other) :
    (t.moveAssign now s other).slots r = t.slots r := by
  unfold Timers.moveAssign
  split
  · rfl
  · dsimp only
    split
    · exact (transferFrom_slots h h').trans (unregisterTimerLocked_slots h)
    · exact transferFrom_slots h h'

theorem call_slots {c : SlotCall} (hc : c.touches r = false) (ha : c ≠ .abort) :
    (t.call now c).1.slots r = t.slots r := by
  cases c <;> simp only [SlotCall.touches, decide_eq_false_iff_not, Bool.or_eq_false_iff] at hc
  case register      => exact registerTimerLocked_slots (Ne.symm hc)
  case unregister    => exact unregisterTimerLocked_slots (Ne.symm hc)
  case cancel        => exact cancelTimerLocked_slots (Ne.symm hc)
  case expiresAt     => exact expiresAt_slots (Ne.symm hc)
  case moveConstruct =>
    exact (transferFrom_slots (Ne.symm hc.1) (Ne.symm hc.2)).trans (setSlot_of_ne (Ne.symm hc.1))
  case moveAssign    => exact moveAssign_slots (Ne.symm hc.1) (Ne.symm hc.2)
  case abort         => exact absurd rfl ha

theorem registerTimerLocked_expiry : (t.registerTimerLocked s now).1.expiry r = t.expiry r := by
  unfold Timers.registerTimerLocked
  split
  · rfl
  · exact insert_expiry.trans (expiry_setSlot rfl)

theorem unregisterTimerLocked_expiry : (t.unregisterTimerLocked s).1.expiry r = t.expiry r := by
  unfold Timers.unregisterTimerLocked
  split
  · rfl
  · exact (stageSubmitted_expiry.trans (expiry_setSlot (by rfl))).trans erase_expiry

theorem cancelTimerLocked_expiry : (t.cancelTimerLocked s).1.expiry r = t.expiry r := by
  unfold Timers.cancelTimerLocked
  split
  · rfl
  · exact stageSubmitted_expiry

theorem transferFrom_expiry (h : r ≠ s) : (t.transferFrom now s other).expiry r = t.expiry r := by
  unfold Timers.transferFrom
  split
  · rfl
  · refine registerTimerLocked_expiry.trans ?_
    rw [expiry, setSlot_of_ne h]
    exact unregisterTimerLocked_expiry

theorem moveAssign_expiry (h : r ≠ s) : (t.moveAssign now s other).expiry r = t.expiry r := by
  unfold Timers.moveAssign
  split
  · rfl
  · dsimp only
    split
    · exact (transferFrom_expiry h).trans unregisterTimerLocked_expiry
    · exact transferFrom_expiry h

theorem releaseSlot_expiry {stages : Bool} : (t.releaseSlot stages s).expiry r = t.expiry r := by
  unfold Timers.releaseSlot
  split <;> exact (expiry_setSlot (by rfl)).trans erase_expiry

theorem emptyHeap_expiry {stages : Bool} {rounds : Nat} :
    (Timers.emptyHeap stages rounds t).expiry r = t.expiry r := by
  induction rounds generalizing t
  case zero           => rfl
  case succ rounds hi =>
    unfold Timers.emptyHeap
    split
    · exact hi.trans releaseSlot_expiry
    · rfl

theorem emptyInactive_expiry {stages : Bool} {rounds : Nat} :
    (Timers.emptyInactive stages rounds t).expiry r = t.expiry r := by
  induction rounds generalizing t
  case zero           => rfl
  case succ rounds hi =>
    unfold Timers.emptyInactive
    split
    · exact hi.trans releaseSlot_expiry
    · rfl

-- Only the calls that are for it change the expiry of a slot; stopping does not.
theorem call_expiry {c : SlotCall} (hc : c.setsExpiry r = false) :
    (t.call now c).1.expiry r = t.expiry r := by
  cases c <;> simp only [SlotCall.setsExpiry, decide_eq_false_iff_not] at hc
  case register      => exact registerTimerLocked_expiry
  case unregister    => exact unregisterTimerLocked_expiry
  case cancel        => exact cancelTimerLocked_expiry
  case expiresAt     => exact congrArg Slot.expiry (expiresAt_slots (Ne.symm hc))
  case moveConstruct =>
    refine (transferFrom_expiry (Ne.symm hc)).trans ?_
    rw [expiry, setSlot_of_ne (Ne.symm hc), expiry]
  case moveAssign    => exact moveAssign_expiry (Ne.symm hc)
  case abort         => exact emptyInactive_expiry.trans emptyHeap_expiry

theorem setTimerExpiryLocked_expiry {e : TimePoint} (hc : (t.slots s).context = some .this) :
    (t.setTimerExpiryLocked s e now).1.expiry s = e := by
  simp only [setTimerExpiryLocked, hc, ne_eq, not_true_eq_false, if_false]
  refine insert_expiry.trans (stageSubmitted_expiry.trans ?_)
  simp [expiry]

theorem startTimerWaitLocked_slot {op : OpId} :
    ((t.startTimerWaitLocked op s).1.slots r).context = (t.slots r).context ∧
      (t.startTimerWaitLocked op s).1.expiry r = t.expiry r := by
  unfold startTimerWaitLocked
  split
  · exact ⟨rfl, rfl⟩
  · split
    · exact ⟨rfl, rfl⟩
    · refine ⟨?_, expiry_setSlot rfl⟩
      by_cases h : r = s
      case pos => subst h; simp
      case neg => rw [setSlot_of_ne h]

end Timers

namespace TimedService

variable {n : Nat} {s s' : TimedService} {t t' : Timers} {a : TimedAction} {i : SlotId}

theorem Acts.context (h : Acts n s t a s' t') (hi : s.Inv n t)
    (hc : ∀ c ∈ a.slotCall, c.touches i = false ∧ c ≠ .abort) :
    (t'.slots i).context = (t.slots i).context := by
  cases h
  case read        => rfl
  case call        => exact congrArg Slot.context (Timers.call_slots (hc _ rfl).1 (hc _ rfl).2)
  case act hx      =>
    cases hx
    case call    => exact congrArg Slot.context (Timers.call_slots (hc _ rfl).1 (hc _ rfl).2)
    case wait    => exact Timers.startTimerWaitLocked_slot.1
    case fetch   =>
      have ⟨popped, hd⟩ := hi.inv.wellFormed.drains s.clock le_rfl
      refine (congrArg Slot.context (hd.slots i)).trans ?_
      split <;> rfl
    case tick | connect | inline | stopped | execute => rfl

theorem Acts.expiry (h : Acts n s t a s' t') (hi : s.Inv n t)
    (hc : ∀ c ∈ a.slotCall, c.setsExpiry i = false) : t'.expiry i = t.expiry i := by
  cases h
  case read        => rfl
  case call        => exact Timers.call_expiry (hc _ rfl)
  case act hx      =>
    cases hx
    case call    => exact Timers.call_expiry (hc _ rfl)
    case wait    => exact Timers.startTimerWaitLocked_slot.2
    case fetch   =>
      have ⟨popped, hd⟩ := hi.inv.wellFormed.drains s.clock le_rfl
      exact congrFun hd.expiry i
    case tick | connect | inline | stopped | execute => rfl

-- Writing the expiry of a slot that is not registered.
theorem Inv.setExpiry {e : TimePoint} (h : s.Inv n t) (hc : (t.slots i).context = none) :
    Inv n { s with data := s.data.setSlot i { s.data.slots i with expiry := e } }
      (t.setSlot i { t.slots i with expiry := e }) := by
  have hk := Timers.keeps_setExpiry (e := e) h.inv.wellFormed h.inv.bound hc
  have ⟨m, hb, hm⟩ := h.latest
  have hr := h.inv.refines.setSlot (s := i) (v := { s.data.slots i with expiry := e })
    (u := { t.slots i with expiry := e })
    (by simp [TimerSlot.toSlot, ← h.inv.refines.slots i]) (h.inv.refines.size i)
  refine ⟨⟨hr, hk.wellFormed, hk.bound, h.inv.nodup⟩, ?_, h.readings, m, ?_, hm⟩
  · exact ((hk.waits.append_right _).append_right _).trans h.places
  · exact (Timers.keeps_setExpiry (e := e) h.inv.wellFormed hb hc).bound

theorem Acts.readings (h : Acts n s t a s' t') : s.readings ⊆ s'.readings := by
  cases h
  case read => exact List.subset_cons_self ..
  case call => exact List.Subset.refl _
  case act  =>
    dsimp only
    split
    · exact List.subset_cons_self ..
    · exact List.Subset.refl _

end TimedService

-- Where a call to `steady_timer::expires_at` is.
inductive ExpiresAtPc
  | entered
  -- `timer_.context` has been found set
  | checked
  -- in `io_context::set_timer_expiry`
  | called
  -- the clock has been read, and `timers_.mutex` is to be taken
  | reading (now : Nat)
  | returned (count : Nat)
  -- `timer_.context`, loaded again for the call, is null
  | fault
  deriving DecidableEq, Repr

-- A thread calls `expires_at` on the timer of one slot while the others go on.
structure ExpiresAt where
  service : TimedService
  pc : ExpiresAtPc := .entered

namespace ExpiresAt

variable (n : Nat) (i : SlotId) (e : TimePoint) (r : ExpiresAt)

def setData (data : TimerData) (pc : ExpiresAtPc) : ExpiresAt :=
  { service := { r.service with data }, pc }

def own : Option ExpiresAt :=
  let d := r.service.data
  match r.pc with
  | .entered     =>
    if (d.slots i).context = none then
      some (r.setData (d.setSlot i { d.slots i with expiry := e }) (.returned 0))
    else some { r with pc := .checked }
  | .checked     => some { r with pc := if (d.slots i).context = none then .fault else .called }
  | .called      => some {
      service := { r.service with readings := r.service.clock :: r.service.readings }
      pc := .reading r.service.clock }
  | .reading now => do
    let (data, count, _) ← d.setTimerExpiryLocked n i e now
    some (r.setData data (.returned count))
  | .returned _ | .fault => none

-- Calls on the same timer are serialized with this one, and the next change of the expiry ends the run.
def Serialized (a : TimedAction) : Prop :=
  match r.pc with
  | .returned _ => a.slotCall.all (!·.setsExpiry i)
  | _           => a.slotCall.all (!·.touches i)

instance {a : TimedAction} : Decidable (r.Serialized i a) := by
  unfold Serialized
  split <;> infer_instance

-- The call makes a step, or another thread acts.
def step : System ExpiresAt (Option TimedAction)
  | r, none   => r.own n i e
  | r, some a =>
    if r.Serialized i a then (TimedService.step n r.service a).map ({ r with service := · }) else none

-- The waits a step moves to `ready` as canceled.
def moved (r r' : ExpiresAt) : Nat :=
  ((r.service.pending n).filter fun op => ⟨op, .canceled⟩ ∈ r'.service.data.ready).length

-- The call has seen the context and has not done its work.
def Committed : Prop :=
  match r.pc with
  | .checked | .called | .reading _  => True
  | .entered | .returned _ | .fault  => False

instance : Decidable r.Committed := by
  unfold Committed
  split <;> infer_instance

-- `stop` does not abort the waits while the call is committed.
def Spares (a : Option TimedAction) : Prop :=
  a.bind TimedAction.slotCall = some .abort → ¬r.Committed

instance {a : Option TimedAction} : Decidable (r.Spares a) := by
  unfold Spares
  infer_instance

structure Inv (r : ExpiresAt) (t : Timers) : Prop where
  inv      : r.service.Inv n t
  reading  : ∀ now, r.pc = .reading now → now ∈ r.service.readings
  context  : r.Committed → (t.slots i).context = some .this
  returned : ∀ k, r.pc = .returned k → t.expiry i = e

variable {n i e} {r r' : ExpiresAt} {t : Timers} {a : TimedAction}

theorem Committed.serialized (h : r.Committed) (hs : r.Serialized i a) :
    ∀ c ∈ a.slotCall, c.touches i = false := by
  unfold Committed at h
  unfold Serialized at hs
  split at h
  case h_4 | h_5 | h_6 => cases h
  all_goals simpa [*, Option.all_eq_true] using hs

namespace Inv

theorem other (h : r.Inv n i e t) (hs : step n i e r (some a) = some r') (hg : r.Spares (some a)) :
    ∃ t', r'.Inv n i e t' := by
  simp only [step] at hs
  split at hs
  case isFalse    => cases hs
  case isTrue hser =>
    have ⟨s', hs', he⟩ := Option.map_eq_some_iff.mp hs
    obtain rfl := he
    have ⟨t', hx⟩ := h.inv.acts hs'
    refine ⟨t', h.inv.step hx, fun now hp => ?_, fun hc => ?_, fun k hp => ?_⟩
    · exact hx.readings (h.reading now hp)
    · have hc : r.Committed := hc
      rw [hx.context h.inv fun c hca => ⟨?_, ?_⟩]
      · exact h.context hc
      · exact hc.serialized hser c hca
      · exact fun he => hg (he ▸ hca) hc
    · have hp : r.pc = .returned k := hp
      simp only [Serialized, hp, Option.all_eq_true, Bool.not_eq_true'] at hser
      rw [hx.expiry h.inv hser]
      exact h.returned k hp

-- The waits of the slot that the call has found are those it counts.
theorem moved_eq (h : r.Inv n i e t)
    (hr : r'.service.data.ready =
      ((t.slots i).submitted.map (Staged.mk · .canceled)).reverse ++ t.ready) :
    r.moved n r' = (t.slots i).submitted.length :=
  (h.inv.inv.cancels (h.inv.inv.conserved h.inv.places) hr).symm

theorem own (h : r.Inv n i e t) (hi : i < n) (hs : r.own n i e = some r') :
    ∃ t', r'.Inv n i e t' ∧ ∀ k, r'.pc = .returned k → k = r.moved n r' := by
  have hctx := h.inv.inv.refines.context i
  have hc := h.context
  unfold ExpiresAt.own at hs
  split at hs
  case h_1 hp     =>
    dsimp only at hs
    split at hs <;> obtain rfl := Option.some.inj hs
    case isTrue hn  =>
      have hn : (t.slots i).context = none := hctx ▸ hn
      have hsub := h.inv.inv.bound.submitted_of_context h.inv.inv.wellFormed (i := i) (by simp [hn])
      refine ⟨_, ⟨h.inv.setExpiry hn, by rintro _ ⟨⟩, by rintro ⟨⟩, fun _ _ => by simp [Timers.expiry]⟩,
        fun k hk => ?_⟩
      · obtain rfl := ExpiresAtPc.returned.inj hk
        rw [h.moved_eq (by simp [setData, hsub, TimerData.setSlot, h.inv.inv.refines.ready]), hsub]
        rfl
    case isFalse hn =>
      refine ⟨t, ⟨h.inv, by rintro _ ⟨⟩, fun _ => ?_, by rintro _ ⟨⟩⟩, by rintro _ ⟨⟩⟩
      exact h.inv.inv.bound.this (hctx ▸ hn)
  case h_2 hp     =>
    obtain rfl := Option.some.inj hs
    have hc := hc (by simp [Committed, hp])
    rw [if_neg (by simp [hctx, hc])]
    exact ⟨t, ⟨h.inv, by rintro _ ⟨⟩, fun _ => hc, by rintro _ ⟨⟩⟩, by rintro _ ⟨⟩⟩
  case h_3 hp     =>
    obtain rfl := Option.some.inj hs
    refine ⟨t, ⟨h.inv.read, fun now hnow => ?_, fun _ => hc (by simp [Committed, hp]), by rintro _ ⟨⟩⟩,
      by rintro _ ⟨⟩⟩
    obtain rfl := ExpiresAtPc.reading.inj hnow
    exact List.mem_cons_self
  case h_4 now hp =>
    have hc := hc (by simp [Committed, hp])
    obtain ⟨d, he, hd⟩ := h.inv.inv.refines.setTimerExpiryLocked (s := i) (e := e) now
      h.inv.inv.wellFormed h.inv.inv.length_le
    have hcall : t.call now (.expiresAt i e) = ((t.setTimerExpiryLocked i e now).1,
        (t.setTimerExpiryLocked i e now).2.1) := by simp [Timers.call, Timers.expiresAt, hc]
    have hx := h.inv.call (h.reading now hp) (c := .expiresAt i e) hi (d := d) (by rw [hcall]; exact hd)
    rw [hcall] at hx
    simp only [he, Option.bind_eq_bind, Option.bind_some, Option.some.injEq] at hs
    obtain rfl := hs
    refine ⟨_, ⟨⟨⟨hx.inv.refines, hx.inv.wellFormed, hx.inv.bound, hx.inv.nodup⟩, hx.places,
      hx.readings, hx.latest⟩, by rintro _ ⟨⟩, by rintro ⟨⟩, fun _ _ => ?_⟩, fun k hk => ?_⟩
    · exact Timers.setTimerExpiryLocked_expiry hc
    · obtain rfl := ExpiresAtPc.returned.inj hk
      rw [h.moved_eq (hd.ready.trans (Timers.setTimerExpiryLocked_ready hc))]
      simp [Timers.setTimerExpiryLocked, hc]
  case h_5 | h_6  => cases hs

end Inv

-- The expiry is written through, and the call counts what it has moved itself.
theorem writes_through (n : Nat) {i : SlotId} (hi : i < n) (e : TimePoint) (as : List TimedAction)
    {s : TimedService} (hr : System.run (TimedService.step n) {} as = some s)
    (bs : List (Option TimedAction)) (hg : Along (step n i e) Spares { service := s } bs) :
    Always (step n i e) (fun r =>
      (∀ k, r.pc = .returned k → r.service.data.expiry i = e) ∧
      ∀ r' k, step n i e r none = some r' → r'.pc = .returned k → k = r.moved n r')
      { service := s } bs := by
  have ⟨t, ht⟩ := System.invariant (I := fun s => ∃ t, s.Inv n t)
    (fun ⟨_, hi⟩ hx => have ⟨_, hx⟩ := hi.acts hx; ⟨_, hi.step hx⟩) ⟨_, .init⟩ hr
  refine Along.always (I := fun r => ∃ t, r.Inv n i e t) ?keep ?imp ⟨t, ht, nofun, nofun, nofun⟩ hg
  case keep =>
    intro r a r' ⟨t, h⟩ ha hs
    cases a
    case none   => have ⟨t', h', _⟩ := h.own hi hs; exact ⟨t', h'⟩
    case some a => exact h.other hs ha
  case imp  =>
    intro r ⟨t, h⟩
    refine ⟨fun k hk => h.inv.inv.refines.expiry ▸ h.returned k hk, fun r' k hs hk => ?_⟩
    have ⟨_, _, hm⟩ := h.own hi hs
    exact hm k hk

-- The timer of slot 0 has been registered and expires at 5.
private def armed : List TimedAction :=
  [.act (.call (.register 0)), .act (.call (.expiresAt 0 (5 : Nat)))]

-- The waits are aborted after the call.
private def abortAfter : List (Option TimedAction) :=
  [none, none, some (.act (.tick 1)), none, none, some (.act (.call .abort))]

theorem writes_through_armed : ∃ s r, System.run (TimedService.step 1) {} armed = some s ∧
    System.run (step 1 0 (9 : Nat)) { service := s } abortAfter = some r ∧
    r.pc = .returned 0 ∧ r.service.data.expiry 0 = (9 : Nat) := by
  have ⟨s, hs, hp⟩ := Option.map_eq_some_iff.mp (by decide +kernel :
    (System.run (TimedService.step 1) {} armed).map (fun s =>
      (decide (Along (step 1 0 (9 : Nat)) Spares { service := s } abortAfter),
        (System.run (step 1 0 (9 : Nat)) { service := s } abortAfter).map (·.pc))) =
      some (true, some (.returned 0)))
  simp only [Prod.mk.injEq, decide_eq_true_eq] at hp
  have ⟨r, hr, hpc⟩ := Option.map_eq_some_iff.mp hp.2
  exact ⟨s, r, hs, hr, hpc,
    ((writes_through 1 Nat.one_pos (9 : Nat) armed hs abortAfter hp.1).last hr).1 0 hpc⟩

-- The waits are aborted between the check of the context and the critical section.
private def abortBetween : List (Option TimedAction) :=
  [none, none, some (.act (.call .abort)), none, none]

theorem expiry_lost : ∃ s r, System.run (TimedService.step 1) {} armed = some s ∧
    System.run (step 1 0 (9 : Nat)) { service := s } abortBetween = some r ∧
    r.pc = .returned 0 ∧ r.service.data.expiry 0 = (5 : Nat) := by
  have ⟨r, hr, hp⟩ := Option.map_eq_some_iff.mp (by decide +kernel :
    ((System.run (TimedService.step 1) {} armed).bind fun s =>
      System.run (step 1 0 (9 : Nat)) { service := s } abortBetween).map
        (fun r => (r.pc, r.service.data.expiry 0)) = some (.returned 0, ((5 : Nat) : TimePoint)))
  have ⟨s, hs, hr⟩ := Option.bind_eq_some_iff.mp hr
  simp only [Prod.mk.injEq] at hp
  exact ⟨s, r, hs, hr, hp⟩

end ExpiresAt
end Bnio.Posix
