import Bnio.Lib.Transition
import Bnio.Posix.Suspend

namespace Bnio.Posix.WorkerStateList

-- `unregister_local_state` is the only caller that looks whether its worker is linked; `begin_wait` and
-- `end_wait` take turns, so that the first links a worker that is not and the second unlinks one that is.
def unregisterLocalState (s : WorkerStateList) (n : Nat) : WorkerStateList :=
  if s.localStateInList n then s.unlinkLocalState n else s

inductive SuspendAction
  | beginWait (n : Nat)
  | endWait (n : Nat)
  | unregister (n : Nat)
  | wake (fuel : Nat)

def step (s : WorkerStateList) : SuspendAction → Option WorkerStateList
  | .beginWait n  => if s.localStateInList n then none else some (s.linkLocalState n)
  | .endWait n    => if s.localStateInList n then some (s.unlinkLocalState n) else none
  | .unregister n => some (s.unregisterLocalState n)
  -- the fuel does not cut the scan off
  | .wake fuel    =>
    if s.links.walk (fuel + 1) s.head = s.links.walk fuel s.head then some (s.wakeOneSleeping fuel).1
    else none

-- The workers that sleep after a call, the latest one first, if those before it are `l`.
def SuspendAction.sleepers (l : List Nat) : SuspendAction → List Nat
  | .beginWait n                => n :: l
  | .endWait n | .unregister n  => l.filter (· ≠ n)
  | .wake _                     => l

-- The workers that the next `k` calls of `wake_one_sleeping` signal.
def wakes (fuel : Nat) : Nat → WorkerStateList → List (Option Nat)
  | 0,     _ => []
  | k + 1, s => (s.wakeOneSleeping fuel).2 :: wakes fuel k (s.wakeOneSleeping fuel).1

-- Directed wakes rotate over the list, wherever the cursor points to.
structure Rotates (s : WorkerStateList) (l : List Nat) : Prop where
  nodup : l.Nodup
  members : ∀ n, s.localStateInList n ↔ n ∈ l
  wakes_iff : ∀ c fuel, l.length ≤ fuel →
    ((wakeOneSleeping { s with cursor := c } fuel).2.isSome ↔ l ≠ [])
  signals : ∀ c fuel n, l.length ≤ fuel → (wakeOneSleeping { s with cursor := c } fuel).2 = some n → n ∈ l
  stale : ∀ c fuel, l.length ≤ fuel → c ∉ l → start { s with cursor := some c } fuel = s.head
  fair : ∀ c fuel, l.length ≤ fuel → (wakes fuel l.length { s with cursor := c }).Perm (l.map some)

variable {s s' : WorkerStateList} {a : SuspendAction} {l : List Nat} {n fuel : Nat} {c : Option Nat}

theorem Holds.setCursor (h : s.Holds l) (c : Option Nat) : Holds { s with cursor := c } l :=
  ⟨h.queue, h.head, h.free⟩

theorem Holds.step (h : s.Holds l) (hs : s.step a = some s') : s'.Holds (a.sleepers l) := by
  cases a
  case beginWait n =>
    simp only [WorkerStateList.step, Option.ite_none_left_eq_some, Option.some.injEq] at hs
    exact hs.2 ▸ h.linkLocalState (hs.1 ∘ h.localStateInList_iff.mpr)
  case endWait n =>
    simp only [WorkerStateList.step, Option.ite_none_right_eq_some, Option.some.injEq] at hs
    exact hs.2 ▸ h.unlinkLocalState (h.localStateInList_iff.mp hs.1)
  case unregister n =>
    obtain rfl := Option.some.inj hs
    unfold unregisterLocalState
    split
    case isTrue hn  => exact h.unlinkLocalState (h.localStateInList_iff.mp hn)
    case isFalse hn =>
      have hl : l.filter (· ≠ n) = l := List.filter_eq_self.mpr fun m hm => by
        simpa using ne_of_mem_of_not_mem hm (hn ∘ h.localStateInList_iff.mpr)
      show s.Holds (l.filter (· ≠ n))
      rwa [hl]
  case wake fuel =>
    simp only [WorkerStateList.step, Option.ite_none_right_eq_some, Option.some.injEq] at hs
    exact hs.2 ▸ h.wakeOneSleeping fuel

theorem Holds.run {as : List SuspendAction} (h : s.Holds l)
    (hr : System.run WorkerStateList.step s as = some s') :
    s'.Holds (as.foldl SuspendAction.sleepers l) := by
  induction as generalizing s l
  case nil          => exact Option.some.inj hr ▸ h
  case cons a as hi =>
    obtain ⟨m, hm, hr⟩ := System.run_cons_eq_some WorkerStateList.step |>.mp hr
    exact hi (h.step hm) hr

theorem Holds.start_of_mem (h : s.Holds l) (hf : l.length ≤ fuel) (hc : s.cursor = some n) (hn : n ∈ l) :
    s.start fuel = some n := by
  have hw : s.links.walk fuel s.head = l := h.head ▸ h.queue.chain.walk hf
  simp [start, hc, hw, hn]

theorem Holds.start_of_not_mem (h : s.Holds l) (hf : l.length ≤ fuel) (hc : s.cursor = some n)
    (hn : n ∉ l) : s.start fuel = s.head := by
  have hw : s.links.walk fuel s.head = l := h.head ▸ h.queue.chain.walk hf
  simp [start, hc, hw, hn]

theorem start_of_none (hc : s.cursor = none) : s.start fuel = s.head := by
  simp [start, hc]

-- A call that starts at a node of the list leaves the cursor at the next one.
theorem wakeOneSleeping_of_start (hs : s.start fuel = some n) :
    s.wakeOneSleeping fuel = ({ s with cursor := s.links.next n }, some n) := by
  simp [WorkerStateList.wakeOneSleeping, hs]

-- From the first node of `b` on, the next calls signal the nodes of `b` and leave the cursor behind them.
theorem Holds.wakes_eq {x b y : List Nat} (h : s.Holds (x ++ b ++ y)) (hf : (x ++ b ++ y).length ≤ fuel)
    (hs : b ≠ [] → s.start fuel = b.head?) (k : Nat) :
    wakes fuel (b.length + k) s = b.map some ++
      wakes fuel k { s with cursor := if b = [] then s.cursor else y.head? } := by
  induction b generalizing x s
  case nil         => simp
  case cons n b hi =>
    have hc : s.links.Chain none (x ++ n :: (b ++ y)) := by simpa using h.queue.chain
    have hw := wakeOneSleeping_of_start (hs (by simp))
    rw [hc.next_of_append] at hw
    have hk : (n :: b).length + k = b.length + k + 1 := by simp only [List.length_cons]; omega
    rw [hk, wakes, hw]
    have he : x ++ [n] ++ b ++ y = x ++ n :: b ++ y := by simp
    have hi := hi (s := { s with cursor := (b ++ y).head? }) (x := x ++ [n]) (he ▸ h.setCursor _)
      (he ▸ hf)
    cases b
    case nil      => simp
    case cons m b =>
      rw [hi fun _ => (h.setCursor _).start_of_mem hf rfl (by simp)]
      simp

-- Wherever the cursor points to, the calls go on from some node to the end of the list, and then from
-- its head to that node.
theorem Holds.fair (h : s.Holds l) (hf : l.length ≤ fuel) :
    (wakes fuel l.length s).Perm (l.map some) := by
  by_cases hl : l = []
  case pos => simp [hl, wakes]
  case neg =>
    cases hw : (s.wakeOneSleeping fuel).2
    case none   => exact absurd (h.wakeOneSleeping_eq_none hw) hl
    case some n =>
      have hs : s.start fuel = some n := by
        unfold WorkerStateList.wakeOneSleeping at hw
        split at hw
        case h_1    => cases hw
        case h_2 hs => exact hs.trans hw
      obtain ⟨x, b, rfl⟩ := List.append_of_mem (h.mem_of_wakeOneSleeping hf hw)
      have hlen : (x ++ n :: b).length = (n :: b).length + x.length := by simp; omega
      have hfirst := Holds.wakes_eq (x := x) (b := n :: b) (y := []) (by simpa using h)
        (by simpa using hf) (fun _ => hs) x.length
      have hrest := Holds.wakes_eq (s := { s with cursor := none }) (x := []) (b := x) (y := n :: b)
        (h.setCursor none) hf (fun hx => ?_) 0
      · rw [hlen, hfirst, List.map_append]
        simp only [reduceCtorEq, if_false, List.head?_nil]
        rw [← Nat.add_zero x.length, hrest]
        have hperm : ((n :: b).map some ++ x.map some).Perm (x.map some ++ (n :: b).map some) :=
          List.perm_append_comm
        simpa [wakes] using hperm
      · rw [start_of_none rfl, h.head]
        exact List.head?_append_of_ne_nil x hx

theorem Holds.rotates (h : s.Holds l) : s.Rotates l where
  nodup := h.queue.nodup
  members n := h.localStateInList_iff
  wakes_iff c fuel hf := by
    have hc := h.setCursor c
    constructor
    case mp =>
      intro hw hl
      have ⟨n, hn⟩ := Option.isSome_iff_exists.mp hw
      simpa [hl] using hc.mem_of_wakeOneSleeping hf hn
    case mpr =>
      intro hl
      by_contra hw
      exact hl (hc.wakeOneSleeping_eq_none (Option.not_isSome_iff_eq_none.mp hw))
  signals c fuel n hf := (h.setCursor c).mem_of_wakeOneSleeping hf
  stale c fuel hf := (h.setCursor (some c)).start_of_not_mem hf rfl
  fair c fuel hf := (h.setCursor c).fair hf

-- After every history of calls, directed wakes rotate over the workers that this history has left asleep.
theorem rotation (as : List SuspendAction) (h : System.run step {} as = some s) :
    s.Rotates (as.foldl SuspendAction.sleepers []) :=
  (holds_init.run h).rotates

-- Worker 1 leaves while the cursor points to it, and sleeps again.
def relink : List SuspendAction :=
  [.beginWait 1, .beginWait 2, .beginWait 3, .wake 3, .wake 3, .endWait 1, .unregister 4, .beginWait 1]

theorem rotation_of_relink : ∃ s, System.run step {} relink = some s ∧ s.Rotates [1, 3, 2] :=
  ⟨_, rfl, rotation relink rfl⟩

end Bnio.Posix.WorkerStateList
