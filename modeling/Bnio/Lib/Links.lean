import Mathlib

-- Doubly linked lists whose links are stored in their nodes: `next n` and `prev n` are the contents
-- of the two link fields of node `n`, whether or not `n` is in a list.
structure Links (ν : Type*) where
  next : ν → Option ν
  prev : ν → Option ν

-- Taking nodes out of a queue does not change its head as long as the head stays.
theorem List.Sublist.head?_eq_of_mem {ν : Type*} {l l' : List ν} {a : ν} (h : l'.Sublist l)
    (hd : l.Nodup) (hh : l.head? = some a) (ha : a ∈ l') : l'.head? = some a := by
  obtain _ | ⟨b, l⟩ := l
  case nil  => simp at hh
  case cons =>
    obtain rfl : b = a := by simpa using hh
    cases h
    case cons h   => exact absurd (h.subset ha) (List.nodup_cons.mp hd).1
    case cons_cons => rfl

theorem List.find?_eq_of_unique {ν : Type*} {l : List ν} {p : ν → Bool} {o : Option ν}
    (hp : ∀ a ∈ l, p a ↔ o = some a) (ho : ∀ a, o = some a → a ∈ l) : l.find? p = o := by
  cases hf : l.find? p
  case none =>
    cases o
    case none   => rfl
    case some a => exact absurd (hp a (ho a rfl) |>.mpr rfl) (List.find?_eq_none.mp hf a (ho a rfl))
  case some a => exact (hp a (List.mem_of_find?_eq_some hf) |>.mp (List.find?_some hf)).symm

namespace Links

variable {ν : Type*} (L : Links ν) {L' : Links ν} {l : List ν} {n m t : ν} {p : Option ν}

-- The nodes of `l` follow each other in this order, and `p` is what precedes the first one.
def Chain : Option ν → List ν → Prop
  | _, []     => True
  | p, n :: l => L.prev n = p ∧ L.next n = l.head? ∧ Chain (some n) l

structure IsQueue (l : List ν) : Prop where
  chain : L.Chain none l
  nodup : l.Nodup

theorem isQueue_nil : L.IsQueue [] :=
  ⟨trivial, .nil⟩

variable {L}

namespace Chain

theorem congr (h : L.Chain p l) (hl : ∀ m ∈ l, L'.next m = L.next m ∧ L'.prev m = L.prev m) :
    L'.Chain p l := by
  induction l generalizing p
  case nil         => trivial
  case cons n l hi =>
    have ⟨hn, hp⟩ := hl n (by simp)
    exact ⟨hp ▸ h.1, hn ▸ h.2.1, hi h.2.2 fun m hm => hl m (by simp [hm])⟩

theorem next_mem (h : L.Chain p l) (hn : n ∈ l) (hm : L.next n = some m) : m ∈ l.tail := by
  induction l generalizing p
  case nil         => simp at hn
  case cons a l hi =>
    cases List.mem_cons.mp hn
    case inl ha =>
      subst ha
      exact List.mem_of_mem_head? (h.2.1 ▸ hm)
    case inr hn => exact List.mem_of_mem_tail (hi h.2.2 hn)

theorem next_of_append {l' : List ν} (h : L.Chain p (l ++ n :: l')) : L.next n = l'.head? := by
  induction l generalizing p
  case nil         => exact h.2.1
  case cons a l hi => exact hi h.2.2

theorem prev_mem (h : L.Chain p l) (hn : n ∈ l) (hm : L.prev n = some m) : p = some m ∨ m ∈ l := by
  induction l generalizing p
  case nil         => simp at hn
  case cons a l hi =>
    cases List.mem_cons.mp hn
    case inl ha => exact .inl <| by rw [← h.1, ← ha, hm]
    case inr hn =>
      cases hi h.2.2 hn
      case inl ha => exact .inr <| by simp [Option.some.inj ha]
      case inr hm => exact .inr <| by simp [hm]

theorem next_eq_none_iff (h : L.Chain p l) (hd : l.Nodup) (hn : n ∈ l) :
    L.next n = none ↔ l.getLast? = some n := by
  induction l generalizing p
  case nil         => simp at hn
  case cons a l hi =>
    cases l
    case nil      => simp_all [Chain]
    case cons b l =>
      have ha : a ∉ b :: l := (List.nodup_cons.mp hd).1
      cases List.mem_cons.mp hn
      case inl he =>
        subst he
        have hne : (b :: l).getLast? ≠ some n := fun h => ha <| List.mem_of_mem_getLast? h
        simpa [h.2.1, List.getLast?_cons_cons] using hne
      case inr hn => simpa [List.getLast?_cons_cons] using hi h.2.2 hd.of_cons hn

theorem append (h : L.Chain p l) (hn : n ∉ l) (ht : l.getLast? = some t)
    (hp : L'.prev n = some t) (hx : L'.next n = none) (htn : L'.next t = some n)
    (htp : L'.prev t = L.prev t) (hd : l.Nodup)
    (hl : ∀ m ∈ l, m ≠ t → L'.next m = L.next m ∧ L'.prev m = L.prev m) :
    L'.Chain p (l ++ [n]) := by
  induction l generalizing p
  case nil         => simp at ht
  case cons a l hi =>
    cases l
    case nil      =>
      simp only [List.getLast?_singleton, Option.some.injEq] at ht
      subst ht
      exact ⟨htp ▸ h.1, by simp [htn], hp, by simp [hx], trivial⟩
    case cons b l =>
      rw [List.getLast?_cons_cons] at ht
      have hat : a ≠ t := fun he => (List.nodup_cons.mp hd).1 <| he ▸ List.mem_of_mem_getLast? ht
      have ⟨han, hap⟩ := hl a (by simp) hat
      refine ⟨hap ▸ h.1, by rw [han, h.2.1]; rfl, ?_⟩
      exact hi h.2.2 (fun hm => hn <| by simp [hm]) ht hd.of_cons fun m hm => hl m (by simp [hm])

-- A chain is determined by its links and its nodes.
theorem unique {l' : List ν} (h : L.Chain p l) (h' : L.Chain p l') (hh : l.head? = l'.head?) :
    l = l' := by
  induction l generalizing p l'
  case nil         => cases l' <;> simp_all
  case cons a l hi =>
    cases l'
    case nil       => simp at hh
    case cons b l' =>
      simp only [List.head?_cons, Option.some.injEq] at hh
      subst hh
      rw [hi h.2.2 h'.2.2 (h.2.1.symm.trans h'.2.1)]

end Chain

namespace IsQueue

theorem congr (h : L.IsQueue l) (hl : ∀ m ∈ l, L'.next m = L.next m ∧ L'.prev m = L.prev m) :
    L'.IsQueue l :=
  ⟨h.chain.congr hl, h.nodup⟩

theorem singleton (hp : L.prev n = none) (hn : L.next n = none) : L.IsQueue [n] :=
  ⟨⟨hp, hn, trivial⟩, List.nodup_singleton n⟩

theorem next_eq_none_iff (h : L.IsQueue l) (hn : n ∈ l) :
    L.next n = none ↔ l.getLast? = some n :=
  h.chain.next_eq_none_iff h.nodup hn

theorem next_mem (h : L.IsQueue l) (hn : n ∈ l) (hm : L.next n = some m) : m ∈ l :=
  List.mem_of_mem_tail <| h.chain.next_mem hn hm

theorem prev_mem (h : L.IsQueue l) (hn : n ∈ l) (hm : L.prev n = some m) : m ∈ l :=
  h.chain.prev_mem hn hm |>.resolve_left nofun

theorem prev_eq_none_of_head (h : L.IsQueue l) (hn : l.head? = some n) : L.prev n = none := by
  cases l
  case nil  => simp at hn
  case cons => exact Option.some.inj hn ▸ h.chain.1

theorem head_of_prev_eq_none (h : L.IsQueue l) (hn : n ∈ l) (hp : L.prev n = none) :
    l.head? = some n := by
  have aux : ∀ {p l}, L.Chain p l → n ∈ l → p ≠ none → L.prev n ≠ none := by
    intro p l hc hn hp
    induction l generalizing p
    case nil         => simp at hn
    case cons a l hi =>
      cases List.mem_cons.mp hn
      case inl ha => exact ha ▸ hc.1 ▸ hp
      case inr hn => exact hi hc.2.2 hn (by simp)
  cases l
  case nil => simp at hn
  case cons a l =>
    cases List.mem_cons.mp hn
    case inl ha => simp [ha]
    case inr hn => exact absurd hp <| aux h.chain.2.2 hn (by simp)

-- Two queues with the same nodes are the same queue: the head is the node without predecessor.
theorem unique {l' : List ν} (h : L.IsQueue l) (h' : L.IsQueue l') (hm : ∀ n, n ∈ l ↔ n ∈ l') :
    l = l' := by
  refine h.chain.unique h'.chain ?_
  cases l
  case nil =>
    cases l'
    case nil      => rfl
    case cons b _ => simpa using hm b
  case cons a l =>
    exact (h'.head_of_prev_eq_none (hm a |>.mp <| by simp) h.chain.1).symm

end IsQueue

variable [DecidableEq ν]

def setNext (L : Links ν) (n : ν) (v : Option ν) : Links ν :=
  { L with next := Function.update L.next n v }

def setPrev (L : Links ν) (n : ν) (v : Option ν) : Links ν :=
  { L with prev := Function.update L.prev n v }

-- Takes `n` out of the list it is linked in and clears its own links.
def unlink (L : Links ν) (n : ν) : Links ν :=
  let L₁ := match L.prev n with
    | none   => L
    | some p => L.setNext p (L.next n)
  let L₂ := match L.next n with
    | none   => L₁
    | some m => L₁.setPrev m (L.prev n)
  (L₂.setPrev n none).setNext n none

-- Links `n` behind `t`.
def appendAfter (L : Links ν) (t n : ν) : Links ν :=
  ((L.setNext t (some n)).setPrev n (some t)).setNext n none

-- Links `n` before `head`, the first node of a list.
def linkFront (L : Links ν) (head : Option ν) (n : ν) : Links ν :=
  let L := (L.setPrev n none).setNext n head
  match head with
  | none   => L
  | some h => L.setPrev h (some n)

-- The nodes from `head` on, of which there are at most `fuel`.
def walk (L : Links ν) : Nat → Option ν → List ν
  | _,        none   => []
  | 0,        some _ => []
  | fuel + 1, some n => n :: L.walk fuel (L.next n)

theorem unlink_next : (L.unlink n).next m =
    if m = n then none else if L.prev n = some m then L.next n else L.next m := by
  unfold unlink setNext setPrev
  cases L.prev n <;> cases L.next n <;> simp only [Function.update_apply, Option.some.injEq,
    reduceCtorEq, if_false, eq_comm]

theorem unlink_prev : (L.unlink n).prev m =
    if m = n then none else if L.next n = some m then L.prev n else L.prev m := by
  unfold unlink setNext setPrev
  cases L.prev n <;> cases L.next n <;> simp only [Function.update_apply, Option.some.injEq,
    reduceCtorEq, if_false, eq_comm]

theorem unlink_eq_of_isolated (hn : L.next n = none) (hp : L.prev n = none) : L.unlink n = L := by
  have h₁ : (L.unlink n).next = L.next := by funext m; simp +contextual [unlink_next, hn, hp]
  have h₂ : (L.unlink n).prev = L.prev := by funext m; simp +contextual [unlink_prev, hn, hp]
  calc L.unlink n = ⟨(L.unlink n).next, (L.unlink n).prev⟩ := rfl
    _ = L := by rw [h₁, h₂]

theorem filter_ne_cons_self (hn : n ∉ l) : (n :: l).filter (· ≠ n) = l := by
  simp only [ne_eq, decide_not, List.filter_cons, decide_true, Bool.not_true]
  exact List.filter_eq_self.mpr fun m hm => by simpa using ne_of_mem_of_not_mem hm hn

-- The head of `l` goes to the case split on whether it is the unlinked node; in the second case the
-- new successor of the head depends on whether its old successor is.
theorem Chain.unlink (h : L.Chain p l) (hd : l.Nodup) (hn : n ∈ l) (hp : ∀ m ∈ l, p ≠ some m) :
    (L.unlink n).Chain p (l.filter (· ≠ n)) := by
  induction l generalizing p
  case nil         => simp at hn
  case cons a l hi =>
    have ⟨hal, hdl⟩ := List.nodup_cons.mp hd
    by_cases ha : a = n
    case pos =>
      subst ha
      rw [filter_ne_cons_self hal]
      cases l
      case nil      => trivial
      case cons b l =>
        have hne : ∀ m ∈ b :: l, m ≠ a := fun m hm => ne_of_mem_of_not_mem hm hal
        have hpm : ∀ m ∈ b :: l, L.prev a ≠ some m := fun m hm => h.1 ▸ hp m (by simp_all)
        refine ⟨?_, ?_, ?_⟩
        · rw [unlink_prev, if_neg (hne b (by simp)), if_pos (by simp [h.2.1]), h.1]
        · rw [unlink_next, if_neg (hne b (by simp)), if_neg (hpm b (by simp)), h.2.2.2.1]
        · refine h.2.2.2.2.congr fun m hm => ⟨?_, ?_⟩
          · rw [unlink_next, if_neg (hne m (by simp [hm])), if_neg (hpm m (by simp [hm]))]
          · have hbm : L.next a ≠ some m := by
              rw [h.2.1]
              exact fun he => (List.nodup_cons.mp hdl).1 (Option.some.inj he ▸ hm)
            rw [unlink_prev, if_neg (hne m (by simp [hm])), if_neg hbm]
    case neg =>
      have hnl : n ∈ l := by simpa [Ne.symm ha] using hn
      have hf : (a :: l).filter (· ≠ n) = a :: l.filter (· ≠ n) := by simp [ha]
      have ih := hi h.2.2 hdl hnl fun m hm he => hal (Option.some.inj he ▸ hm)
      have hna : L.next n ≠ some a := fun he =>
        hal <| List.mem_of_mem_tail <| h.2.2.next_mem hnl he
      rw [hf]
      refine ⟨by rw [unlink_prev, if_neg ha, if_neg hna, h.1], ?_, ih⟩
      rw [unlink_next, if_neg ha]
      obtain _ | ⟨b, l⟩ := l
      case nil  => simp at hnl
      case cons =>
        by_cases hb : b = n
        case pos =>
          subst hb
          rw [if_pos h.2.2.1, filter_ne_cons_self (List.nodup_cons.mp hdl).1, h.2.2.2.1]
        case neg =>
          have hnl : n ∈ l := by simpa [Ne.symm hb] using hnl
          have hpa : L.prev n ≠ some a := fun he =>
            (h.2.2.2.2.prev_mem hnl he).elim
              (fun h => hal <| by simp [Option.some.inj h]) (fun h => hal <| by simp [h])
          rw [if_neg hpa, h.2.1]
          simp [hb]

namespace IsQueue

theorem unlink (h : L.IsQueue l) (hn : n ∈ l) : (L.unlink n).IsQueue (l.filter (· ≠ n)) :=
  ⟨h.chain.unlink h.nodup hn (by simp), h.nodup.filter _⟩

theorem head_unlink (h : L.IsQueue l) (hn : n ∈ l) :
    (l.filter (· ≠ n)).head? = if L.prev n = none then L.next n else l.head? := by
  obtain _ | ⟨a, l⟩ := l
  case nil  => simp at hn
  case cons =>
    by_cases ha : a = n
    case pos =>
      subst ha
      rw [filter_ne_cons_self (List.nodup_cons.mp h.nodup).1]
      simp [h.chain.1, h.chain.2.1]
    case neg =>
      have hp : L.prev n ≠ none := fun he => ha <| by simpa using h.head_of_prev_eq_none hn he
      simp [hp, ha]

-- Unlinking a node of one queue leaves the nodes outside of that queue alone.
theorem unlink_frame (h : L.IsQueue l) (hn : n ∈ l) (hm : m ∉ l) :
    (L.unlink n).next m = L.next m ∧ (L.unlink n).prev m = L.prev m := by
  have hmn : m ≠ n := fun he => hm (he ▸ hn)
  have h₁ : L.prev n ≠ some m := fun he => hm <| h.prev_mem hn he
  have h₂ : L.next n ≠ some m := fun he => hm <| h.next_mem hn he
  simp [unlink_next, unlink_prev, hmn, h₁, h₂]

theorem appendAfter (h : L.IsQueue l) (ht : l.getLast? = some t) (hn : n ∉ l) :
    (L.appendAfter t n).IsQueue (l ++ [n]) := by
  have htn : t ≠ n := fun he => hn <| he ▸ List.mem_of_mem_getLast? ht
  have hd : (l ++ [n]).Nodup :=
    List.nodup_append.mpr ⟨h.nodup, by simp, by simpa using fun m hm => ne_of_mem_of_not_mem hm hn⟩
  refine ⟨?_, hd⟩
  refine h.chain.append hn ht ?_ ?_ ?_ ?_ h.nodup fun m hm hmt => ?_
  all_goals simp [Links.appendAfter, setNext, setPrev, Function.update_apply, htn]
  have hmn : m ≠ n := fun he => hn (he ▸ hm)
  simp [hmn, hmt]

end IsQueue

namespace IsQueue

theorem linkFront (h : L.IsQueue l) (hn : n ∉ l) : (L.linkFront l.head? n).IsQueue (n :: l) := by
  refine ⟨?_, List.nodup_cons.mpr ⟨hn, h.nodup⟩⟩
  obtain _ | ⟨a, l⟩ := l
  case nil  => simp [Chain, Links.linkFront, setNext, setPrev]
  case cons =>
    have ⟨han, hal⟩ : a ≠ n ∧ n ∉ l := by simp at hn; exact ⟨Ne.symm hn.1, hn.2⟩
    have hl : ∀ m ∈ l, m ≠ a := fun m hm => ne_of_mem_of_not_mem hm (List.nodup_cons.mp h.nodup).1
    have hc : ((L.linkFront (some a) n)).Chain (some a) l := by
      refine h.chain.2.2.congr fun m hm => ?_
      have hmn : m ≠ n := ne_of_mem_of_not_mem hm hal
      simp [Links.linkFront, setNext, setPrev, hmn, hl m hm]
    refine ⟨?_, ?_, ?_, ?_, hc⟩
    all_goals simp [Links.linkFront, setNext, setPrev, han, Ne.symm han, h.chain.2.1]

end IsQueue

theorem linkFront_frame {head : Option ν} (hm : m ≠ n) (hh : head ≠ some m) :
    (L.linkFront head n).next m = L.next m ∧ (L.linkFront head n).prev m = L.prev m := by
  cases head
  case none   => simp [linkFront, setNext, setPrev, hm]
  case some a =>
    have ha : m ≠ a := fun he => hh (he ▸ rfl)
    simp [linkFront, setNext, setPrev, hm, ha]

omit [DecidableEq ν] in
theorem Chain.walk {fuel : Nat} (h : L.Chain p l) (hf : l.length ≤ fuel) :
    L.walk fuel l.head? = l := by
  induction l generalizing p fuel
  case nil         => cases fuel <;> rfl
  case cons a l hi =>
    obtain _ | fuel := fuel
    case zero => simp at hf
    case succ => simpa [Links.walk, h.2.1] using hi h.2.2 (by simpa using hf)

theorem appendAfter_frame (hm : m ≠ t) (hn : m ≠ n) :
    (L.appendAfter t n).next m = L.next m ∧ (L.appendAfter t n).prev m = L.prev m := by
  simp [appendAfter, setNext, setPrev, hm, hn]

theorem appendAfter_next : (L.appendAfter t n).next m =
    if m = n then none else if m = t then some n else L.next m := by
  simp [appendAfter, setNext, setPrev, Function.update_apply]

theorem appendAfter_prev : (L.appendAfter t n).prev m =
    if m = n then some t else L.prev m := by
  simp [appendAfter, setNext, setPrev, Function.update_apply]

-- What is left of well formed lists when nodes may be linked behind themselves and several lists may
-- have the same purpose: a link is answered by the link back unless it is the prev link of a node to
-- itself, and following the next links leads nowhere twice.
structure Woven (L : Links ν) : Prop where
  next : ∀ {n m}, L.next n = some m → L.prev m = some n
  prev : ∀ {n m}, L.prev m = some n → n = m ∨ L.next n = some m
  rank : ∃ r : ν → Nat, ∀ n m, L.next n = some m → r n < r m

namespace Woven

omit [DecidableEq ν] in
theorem next_ne (h : L.Woven) (hn : L.next n = some m) : n ≠ m := by
  have ⟨r, hr⟩ := h.rank
  exact fun he => Nat.lt_irrefl _ (he ▸ hr n m hn)

omit [DecidableEq ν] in
theorem next_of_prev (h : L.Woven) (hs : L.prev m ≠ some m) (hp : L.prev m = some n) :
    L.next n = some m :=
  (h.prev hp).resolve_left fun he => hs (he ▸ hp)

theorem unlink (h : L.Woven) (hs : L.prev n ≠ some n) : (L.unlink n).Woven where
  next {a b} hab := by
    rw [unlink_next] at hab
    split at hab
    case isTrue  => simp at hab
    case isFalse ha =>
      split at hab
      case isTrue hp =>
        have hb : b ≠ n := (h.next_ne hab).symm
        rw [unlink_prev, if_neg hb, if_pos hab, hp]
      case isFalse hp =>
        have hb := h.next hab
        have hbn : b ≠ n := fun he => hp (he ▸ hb)
        have hnb : L.next n ≠ some b := fun hn => ha <| Option.some.inj <| hb.symm.trans (h.next hn)
        rw [unlink_prev, if_neg hbn, if_neg hnb, hb]
  prev {a b} hab := by
    rw [unlink_prev] at hab
    split at hab
    case isTrue  => simp at hab
    case isFalse hb =>
      split at hab
      case isTrue hn =>
        have ha : a ≠ n := fun he => hs (he ▸ hab)
        rw [unlink_next, if_neg ha, if_pos hab, hn]
        exact .inr rfl
      case isFalse hn =>
        refine (h.prev hab).imp_right fun hx => ?_
        have ha : a ≠ n := fun he => hn (he ▸ hx)
        have hpa : L.prev n ≠ some a := fun hp =>
          hb <| Option.some.inj <| hx.symm.trans (h.next_of_prev hs hp)
        rw [unlink_next, if_neg ha, if_neg hpa, hx]
  rank := by
    have ⟨r, hr⟩ := h.rank
    refine ⟨r, fun a b hab => ?_⟩
    rw [unlink_next] at hab
    split at hab
    case isTrue  => simp at hab
    case isFalse =>
      split at hab
      case isTrue hp  => exact Nat.lt_trans (hr _ _ (h.next_of_prev hs hp)) (hr _ _ hab)
      case isFalse hp => exact hr _ _ hab

-- Unlinking does not link a node to itself.
theorem prev_ne_of_unlink (h : L.Woven) (hs : L.prev n ≠ some n) (hm : L.prev m ≠ some m) :
    (L.unlink n).prev m ≠ some m := by
  rw [unlink_prev]
  split
  case isTrue  => simp
  case isFalse =>
    split
    case isTrue hn =>
      intro hp
      have ⟨r, hr⟩ := h.rank
      exact Nat.lt_asymm (hr _ _ hn) (hr _ _ (h.next_of_prev hs hp))
    case isFalse => exact hm

theorem unlink_isolated (h : L.Woven) (hs : L.prev n ≠ some n) (hn : L.next m = none)
    (hp : L.prev m = none) : (L.unlink n).next m = none ∧ (L.unlink n).prev m = none := by
  have h₁ : L.prev n ≠ some m := fun he => by simp [h.next_of_prev hs he] at hn
  have h₂ : L.next n ≠ some m := fun he => by simp [h.next he] at hp
  simp [unlink_next, unlink_prev, h₁, h₂, hn, hp]

theorem unlink_head (h : L.Woven) (hp : L.prev m = none) : (L.unlink n).prev m = none := by
  have hn : L.next n ≠ some m := fun he => by simp [h.next he] at hp
  simp [unlink_prev, hn, hp]

-- The node behind a head becomes a head when that head is unlinked, and stays behind it when another
-- node is.
theorem unlink_second (h : L.Woven) (hm : L.prev m = some t) (ht : L.prev t = none) (hne : m ≠ n) :
    (L.unlink n).prev m = none ∨
      (L.unlink n).prev m = some t ∧ (L.unlink n).prev t = none := by
  by_cases hn : L.next n = some m
  case pos =>
    obtain rfl : t = n := Option.some.inj <| hm.symm.trans (h.next hn)
    exact .inl <| by rw [unlink_prev, if_neg hne, if_pos hn, ht]
  case neg =>
    exact .inr ⟨by rw [unlink_prev, if_neg hne, if_neg hn, hm], h.unlink_head ht⟩

-- `t` may be `n`, which is then linked to itself.
theorem appendAfter (h : L.Woven) (ht : L.next t = none) (hn : L.next n = none)
    (hp : L.prev n = none) : (L.appendAfter t n).Woven where
  next {a b} hab := by
    rw [appendAfter_next] at hab
    split at hab
    case isTrue  => simp at hab
    case isFalse =>
      split at hab
      case isTrue ha => simpa [appendAfter_prev, ← Option.some.inj hab] using ha.symm
      case isFalse   =>
        have hb := h.next hab
        have hbn : b ≠ n := fun he => by simp [he, hp] at hb
        rw [appendAfter_prev, if_neg hbn, hb]
  prev {a b} hab := by
    rw [appendAfter_prev] at hab
    split at hab
    case isTrue hb =>
      obtain rfl := Option.some.inj hab
      subst hb
      by_cases he : t = b
      case pos => exact .inl he
      case neg => exact .inr <| by simp [appendAfter_next, he]
    case isFalse =>
      refine (h.prev hab).imp_right fun hx => ?_
      have ha : a ≠ n := fun he => by simp [he, hn] at hx
      have hat : a ≠ t := fun he => by simp [he, ht] at hx
      rw [appendAfter_next, if_neg ha, if_neg hat, hx]
  rank := by
    have ⟨r, hr⟩ := h.rank
    refine ⟨Function.update r n (r t + 1), fun a b hab => ?_⟩
    rw [appendAfter_next] at hab
    split at hab
    case isTrue     => simp at hab
    case isFalse ha =>
      split at hab
      case isTrue hat => simp [← Option.some.inj hab, hat ▸ ha, hat]
      case isFalse    =>
        have hbn : b ≠ n := fun he => by simp [h.next (he ▸ hab)] at hp
        simpa [ha, hbn] using hr _ _ hab

end Woven

end Links
