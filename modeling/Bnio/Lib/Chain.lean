import Mathlib

-- Singly linked lists whose link is stored in their nodes: following `next` from `p` on gives the nodes
-- of the list in this order, and then ends.
def Linked {ν : Type*} (next : ν → Option ν) : Option ν → List ν → Prop
  | p, []     => p = none
  | p, n :: l => p = some n ∧ Linked next (next n) l

namespace Linked

variable {ν : Type*} {next next' : ν → Option ν} {p v : Option ν} {n : ν} {l l' : List ν}

instance decidable [DecidableEq ν] (next : ν → Option ν) :
    (p : Option ν) → (l : List ν) → Decidable (Linked next p l)
  | p, []     => inferInstanceAs (Decidable (p = none))
  | p, n :: l =>
    have := Linked.decidable next (next n) l
    inferInstanceAs (Decidable (p = some n ∧ Linked next (next n) l))

theorem of_none (h : Linked next none l) : l = [] := by
  cases l
  case nil  => rfl
  case cons => cases h.1

theorem head?_eq (h : Linked next p l) : l.head? = p := by
  cases l
  case nil  => exact h.symm
  case cons => exact h.1.symm

theorem of_some (h : Linked next (some n) l) : ∃ l', l = n :: l' ∧ Linked next (next n) l' := by
  cases l
  case nil       => cases h
  case cons m l =>
    obtain rfl := Option.some.inj h.1
    exact ⟨l, rfl, h.2⟩

theorem congr (h : Linked next p l) (hl : ∀ m ∈ l, next' m = next m) : Linked next' p l := by
  induction l generalizing p
  case nil         => exact h
  case cons n l hi => exact ⟨h.1, hl n (by simp) ▸ hi h.2 fun m hm => hl m (by simp [hm])⟩

theorem unique (h : Linked next p l) (h' : Linked next p l') : l = l' := by
  induction l generalizing p l'
  case nil         => exact (of_none (h ▸ h')).symm
  case cons n l hi =>
    have ⟨m, he, hl⟩ := of_some (h.1 ▸ h')
    rw [he, hi h.2 hl]

variable [DecidableEq ν]

-- Links of nodes outside of the list do not matter.
theorem update (h : Linked next p l) (hn : n ∉ l) : Linked (Function.update next n v) p l :=
  h.congr fun _ hm => Function.update_of_ne (ne_of_mem_of_not_mem hm hn) ..

theorem push (h : Linked next p l) (hn : n ∉ l) : Linked (Function.update next n p) (some n) (n :: l) :=
  ⟨rfl, by simpa using h.update hn⟩

end Linked
