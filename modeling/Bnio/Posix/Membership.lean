import Bnio.Posix.TimerService

namespace Bnio.Posix

open System

namespace TimerData

-- The links reach the slots of `tree` from `heap` and those of `list` from `inactive`, each of them once.
structure Holds (d : TimerData) (tree : PairingHeap SlotId) (list : List SlotId) : Prop where
  heap     : d.links.Forest none tree d.heap
  inactive : d.list.IsQueue list ∧ d.inactive = list.head?
  nodup    : (tree.members ++ list).Nodup
  mem_tree : ∀ r, r ∈ tree.members ↔ (d.slots r).context ≠ none ∧ (d.slots r).active = true
  mem_list : ∀ r, r ∈ list ↔ (d.slots r).context ≠ none ∧ (d.slots r).active = false

-- The queues of the waits: their sizes, that none has an operation twice and no two have one in common.
structure Queued (d : TimerData) : Prop where
  size  : ∀ r, (d.slots r).submitted.size = (d.slots r).submitted.ops.length
  nodup : ∀ r, (d.slots r).submitted.ops.Nodup
  apart : ∀ r r', r ≠ r' → (d.slots r).submitted.ops.Disjoint (d.slots r').submitted.ops
  ready : ∀ r, (d.slots r).submitted.ops.Disjoint (d.ready.map Staged.op)
  empty : ∀ r, (d.slots r).context = none ∨ (d.slots r).active = false →
    (d.slots r).submitted.ops = []

end TimerData

namespace Timers

variable {t : Timers} {r r' : SlotId} {n now : Nat}

-- Only a slot in the heap has submitted waits.
theorem Bound.submitted_of_not_mem (h : t.Bound n now) (ht : t.WellFormed) (hr : r ∉ t.heap.members) :
    (t.slots r).submitted = [] := by
  have ho : (t.slots r).context ≠ some .other := fun ho => by simpa [ho] using h.context r
  refine (ht.slot r).submitted ho ?_
  rcases h.context r with hc | ⟨hc, _⟩
  · exact (ht.slot r).unregistered hc
  · exact Bool.eq_false_iff.mpr fun ha => hr ((ht.slot r).heap.mpr ⟨hc, ha⟩)

theorem Bound.queued (h : t.Bound n now) (ht : t.WellFormed) (hn : t.waits.Nodup) :
    (t.slots r).submitted.Nodup ∧ (t.slots r).submitted.Disjoint (t.ready.map Staged.op) := by
  by_cases hr : r ∈ t.heap.members
  case neg => simp [h.submitted_of_not_mem ht hr]
  case pos =>
    have ⟨hm, _, hd⟩ := List.nodup_append'.mp hn
    have hs : (t.slots r).submitted ⊆ t.heap.members.flatMap fun s => (t.slots s).submitted :=
      fun _ hop => List.mem_flatMap.mpr ⟨r, hr, hop⟩
    exact ⟨(List.nodup_flatMap.mp hm).1 r hr, List.disjoint_of_subset_left hs hd⟩

theorem Bound.apart (h : t.Bound n now) (ht : t.WellFormed) (hn : t.waits.Nodup) (hne : r ≠ r') :
    (t.slots r).submitted.Disjoint (t.slots r').submitted := by
  by_cases hr : r ∈ t.heap.members
  case neg => simp [h.submitted_of_not_mem ht hr]
  case pos =>
    by_cases hr' : r' ∈ t.heap.members
    case neg => simp [h.submitted_of_not_mem ht hr']
    case pos =>
      have hp := (List.nodup_flatMap.mp (List.nodup_append'.mp hn).1).2
      have : Std.Symm (Function.onFun List.Disjoint fun s => (t.slots s).submitted) :=
        ⟨fun _ _ => List.disjoint_symm⟩
      exact hp.forall hr hr' hne

end Timers

namespace TimerService

variable {n : Nat} {s : TimerService} {t : Timers}

theorem Inv.holds (h : s.Inv n t) : s.data.Holds t.heap t.inactive where
  heap       := h.refines.heap
  inactive   := ⟨h.refines.inactive, h.refines.head⟩
  nodup      := h.wellFormed.apart.nodup
  mem_tree r := by
    have hc : (t.slots r).context = some .this ↔ (t.slots r).context ≠ none :=
      ⟨(by simp [·]), h.bound.this⟩
    rw [(h.wellFormed.slot r).heap, h.refines.context, h.refines.active, hc]
  mem_list r := by
    have hc : (t.slots r).context = some .this ↔ (t.slots r).context ≠ none :=
      ⟨(by simp [·]), h.bound.this⟩
    rw [(h.wellFormed.slot r).inactive, h.refines.context, h.refines.active, hc, Bool.not_eq_true']

theorem Inv.queued (h : s.Inv n t) (hp : (s.places t).Subperm s.started) : s.data.Queued := by
  have ⟨l, hl, hs⟩ := hp
  have hn := hl.nodup_iff.mp (h.nodup.sublist hs)
  have hn : t.waits.Nodup := (List.nodup_append'.mp (List.nodup_append'.mp hn).1).1
  refine ⟨h.refines.size, fun r => ?_, fun r r' hr => ?_, fun r => ?_, fun r hr => ?_⟩
  · exact h.refines.submitted r ▸ (h.bound.queued h.wellFormed hn).1
  · rw [h.refines.submitted, h.refines.submitted]
    exact h.bound.apart h.wellFormed hn hr
  · rw [h.refines.submitted, h.refines.ready]
    exact (h.bound.queued h.wellFormed hn).2
  · rw [h.refines.context, h.refines.active] at hr
    rw [h.refines.submitted]
    refine h.bound.submitted_of_not_mem h.wellFormed fun hm => ?_
    have ⟨hc, ha⟩ := h.wellFormed.of_mem_heap hm
    simp [hc, ha] at hr

-- Clearing the timers drops operations but starts none.
theorem Inv.clear (h : s.Inv n t) :
    ∃ d, s.data.clear n = some d ∧ { s with data := d }.Inv n t.clear ∧
      ({ s with data := d }.places t.clear).Subperm (s.places t) := by
  have ⟨d, he, hd⟩ := h.refines.clear h.wellFormed (h.bound.length_le h.wellFormed)
  have hs := h.wellFormed.waits_clear_subperm
  exact ⟨d, he, ⟨hd, h.wellFormed.clear, h.bound.clear h.wellFormed, h.nodup⟩,
    (List.subperm_append_right _).mpr ((List.subperm_append_right _).mpr hs)⟩

-- The invariant of the timers, whether or not they have been cleared.
def Kept (n : Nat) (s : TimerService) : Prop :=
  ∃ t, s.Inv n t ∧ (s.places t).Subperm s.started

theorem Kept.init : Kept n {} :=
  ⟨{}, .init, .refl _⟩

theorem Kept.lifeStep {s' : TimerService} {a : Option TimerAction} (h : s.Kept n)
    (hs : lifeStep n s a = some s') : s'.Kept n := by
  have ⟨t, ht, hp⟩ := h
  cases a
  case none   =>
    have ⟨d, he, hd, hp'⟩ := ht.clear
    simp only [TimerService.lifeStep, he, Option.bind_eq_bind, Option.bind_some, Option.some.injEq] at hs
    exact ⟨t.clear, hs ▸ hd, hs ▸ hp'.trans hp⟩
  case some a =>
    have ⟨t', hx⟩ := ht.acts_of_step hs
    have ⟨l, hl, hp'⟩ := ht.places hx
    exact ⟨t', ht.step hx, hl ▸ hp'.subperm.trans ((List.subperm_append_left _).mpr hp)⟩

theorem Kept.isSome {a : Option TimerAction} (h : s.Kept n) (ha : ∀ b ∈ a, s.Enabled n b) :
    (TimerService.lifeStep n s a).isSome := by
  have ⟨t, ht, _⟩ := h
  cases a
  case none   =>
    have ⟨d, he, _⟩ := ht.clear
    simp [TimerService.lifeStep, he]
  case some a =>
    have ha := ha a rfl
    have ⟨s', _, he, _⟩ := ht.acts ha
    simp [TimerService.lifeStep, TimerService.step, ha, he]

-- Over every sequence of calls, with the context cleared at any points: every slot is where its flags
-- say, every queue is as long as it says, and no call runs into a loop.
theorem always_membership (n : Nat) (as : List (Option TimerAction)) :
    Always (lifeStep n) (fun s =>
      (∃ tree list, s.data.Holds tree list) ∧ s.data.Queued ∧
        ∀ a, (∀ b ∈ a, s.Enabled n b) → (lifeStep n s a).isSome) {} as :=
  .of_invariant Kept.lifeStep
    (fun h =>
      have ⟨t, ht, hp⟩ := h
      ⟨⟨t.heap, t.inactive, ht.holds⟩, ht.queued hp, fun _ => h.isSome⟩)
    .init

end TimerService
end Bnio.Posix
