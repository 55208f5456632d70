import Bnio.Lib.Links

namespace Bnio.Posix

-- The suspend list of a worker group; a node is named by its worker.
structure WorkerStateList where
  links : Links Nat := ⟨fun _ => none, fun _ => none⟩
  head : Option Nat := none
  cursor : Option Nat := none

namespace WorkerStateList

variable (s : WorkerStateList) (n : Nat)

def linkLocalState : WorkerStateList :=
  { s with links := s.links.linkFront s.head n, head := some n }

-- A node without predecessor is taken for the head, whether or not it is in the list.
def unlinkLocalState : WorkerStateList :=
  { s with
    links := s.links.unlink n
    head := if s.links.prev n = none then s.links.next n else s.head }

def localStateInList : Bool :=
  s.links.prev n ≠ none || s.head = some n

-- The node `wake_one_sleeping` signals; `fuel` bounds the scan for the saved cursor.
def start (fuel : Nat) : Option Nat :=
  match s.cursor with
  | none   => s.head
  | some c => if c ∈ s.links.walk fuel s.head then some c else s.head

def wakeOneSleeping (fuel : Nat) : WorkerStateList × Option Nat :=
  match s.start fuel with
  | none   => ({ s with cursor := none }, none)
  | some n => ({ s with cursor := s.links.next n }, some n)

-- The list consists of the nodes of `l`, and no other node has a link.
structure Holds (l : List Nat) : Prop where
  queue : s.links.IsQueue l
  head  : s.head = l.head?
  free  : ∀ n ∉ l, s.links.next n = none ∧ s.links.prev n = none

variable {s n} {l : List Nat} {m : Nat}

theorem holds_init : ({} : WorkerStateList).Holds [] :=
  ⟨Links.isQueue_nil _, rfl, fun _ _ => ⟨rfl, rfl⟩⟩

namespace Holds

theorem linkLocalState (h : s.Holds l) (hn : n ∉ l) : (s.linkLocalState n).Holds (n :: l) where
  queue    := by simpa [WorkerStateList.linkLocalState, h.head] using h.queue.linkFront hn
  head     := rfl
  free m hm := by
    have ⟨hmn, hml⟩ : m ≠ n ∧ m ∉ l := by simpa using hm
    have hh : s.head ≠ some m := fun he => hml <| List.mem_of_mem_head? (h.head ▸ he)
    have hf := Links.linkFront_frame (L := s.links) hmn hh
    exact ⟨hf.1.trans (h.free m hml).1, hf.2.trans (h.free m hml).2⟩

theorem unlinkLocalState (h : s.Holds l) (hn : n ∈ l) :
    (s.unlinkLocalState n).Holds (l.filter (· ≠ n)) where
  queue := h.queue.unlink hn
  head  := by rw [h.queue.head_unlink hn, WorkerStateList.unlinkLocalState, h.head]
  free m hm := by
    by_cases hmn : m = n
    case pos => simp [WorkerStateList.unlinkLocalState, Links.unlink_next, Links.unlink_prev, hmn]
    case neg =>
      have hml : m ∉ l := by simpa [hmn] using hm
      have hf := h.queue.unlink_frame hn hml
      exact ⟨hf.1.trans (h.free m hml).1, hf.2.trans (h.free m hml).2⟩

theorem localStateInList_iff (h : s.Holds l) : s.localStateInList n ↔ n ∈ l := by
  constructor
  case mp =>
    intro hi
    by_contra hn
    have hp := (h.free n hn).2
    have hh : s.head ≠ some n := fun he => hn <| List.mem_of_mem_head? (h.head ▸ he)
    simp [WorkerStateList.localStateInList, hp, hh] at hi
  case mpr =>
    intro hn
    by_cases hp : s.links.prev n = none
    case pos => simp [WorkerStateList.localStateInList, h.head, h.queue.head_of_prev_eq_none hn hp]
    case neg => simp [WorkerStateList.localStateInList, hp]

theorem wakeOneSleeping (h : s.Holds l) (fuel : Nat) : (s.wakeOneSleeping fuel).1.Holds l := by
  unfold WorkerStateList.wakeOneSleeping
  split
  · exact ⟨h.queue, h.head, h.free⟩
  · exact ⟨h.queue, h.head, h.free⟩

-- What is signalled is a node of the list.
theorem mem_of_wakeOneSleeping {fuel : Nat} (h : s.Holds l) (hf : l.length ≤ fuel)
    (hw : (s.wakeOneSleeping fuel).2 = some n) : n ∈ l := by
  have hs : s.start fuel = some n := by
    revert hw
    unfold WorkerStateList.wakeOneSleeping
    split
    case h_1      => simp
    case h_2 hs => intro hw; exact Option.some.inj hw ▸ hs
  have hh : s.head = some n → n ∈ l := fun he => List.mem_of_mem_head? (h.head ▸ he)
  unfold start at hs
  split at hs
  case h_1 => exact hh hs
  case h_2 =>
    split at hs
    case isFalse    => exact hh hs
    case isTrue c _ hc =>
      rw [h.head, h.queue.chain.walk hf] at hc
      exact Option.some.inj hs ▸ hc

theorem wakeOneSleeping_eq_none {fuel : Nat} (h : s.Holds l)
    (hw : (s.wakeOneSleeping fuel).2 = none) : l = [] := by
  have hs : s.start fuel = none := by
    revert hw
    unfold WorkerStateList.wakeOneSleeping
    split <;> simp_all
  have hh : s.head = none := by
    unfold start at hs
    split at hs
    case h_1 => exact hs
    case h_2 =>
      split at hs
      case isTrue  => cases hs
      case isFalse => exact hs
  exact List.head?_eq_none_iff.mp (h.head ▸ hh)

end Holds
end WorkerStateList
end Bnio.Posix
