import Mathlib

-- Pairing heaps in child-sibling form: `child` is the first child of a node and `next` the sibling
-- that follows it, so a value of this type is a forest and a heap is a forest of at most one tree.
inductive PairingHeap (α : Type*)
  | nil
  | node (a : α) (child next : PairingHeap α)
  deriving DecidableEq, Repr

namespace PairingHeap

variable {α κ : Type*}

def members : PairingHeap α → List α
  | nil        => []
  | node a c n => a :: (c.members ++ n.members)

def front? : PairingHeap α → Option α
  | nil        => none
  | node a _ _ => some a

section Operations

variable [LinearOrder κ] (key : α → κ)

-- The root with the smaller key gets the other one as its first child.
def meld : PairingHeap α → PairingHeap α → PairingHeap α
  | nil,        h          => h
  | h,          nil        => h
  | node a c n, node b d m =>
    if key b < key a then node b (node a c d) m else node a (node b d c) n

-- Melds neighbouring trees of the forest, and each of these pairs into `result`.
def mergePairs (result : PairingHeap α) : PairingHeap α → PairingHeap α
  | nil                   => result
  | node a c nil          => meld key result (node a c nil)
  | node a c (node b d n) =>
    mergePairs (meld key result (meld key (node a c nil) (node b d nil))) n

def push (a : α) (h : PairingHeap α) : PairingHeap α :=
  meld key h (node a nil nil)

-- Takes the node of `a` out of its list of siblings; the second component are its children.
def cut [DecidableEq α] (a : α) : PairingHeap α → Option (PairingHeap α × PairingHeap α)
  | nil        => none
  | node b c n =>
    if a = b then some (n, c)
    else match cut a c with
      | some (c, k) => some (node b c n, k)
      | none        => (cut a n).map fun (n, k) => (node b c n, k)

def erase [DecidableEq α] (a : α) (h : PairingHeap α) : PairingHeap α :=
  match cut a h with
  | none        => h
  | some (h, k) => meld key h (mergePairs key nil k)

end Operations

def IsTree : PairingHeap α → Prop
  | nil        => True
  | node _ _ n => n = nil

-- No child has a smaller key than its parent.
def Ordered [LinearOrder κ] (key : α → κ) : PairingHeap α → Prop
  | nil        => True
  | node a c n => (∀ x ∈ c.members, key a ≤ key x) ∧ c.Ordered key ∧ n.Ordered key

structure WellFormed [LinearOrder κ] (key : α → κ) (h : PairingHeap α) : Prop where
  tree    : h.IsTree
  ordered : h.Ordered key

variable [LinearOrder κ] {key key' : α → κ} {a b : α} {h h' k r : PairingHeap α}

theorem Ordered.congr (ho : h.Ordered key) (hk : ∀ x ∈ h.members, key' x = key x) :
    h.Ordered key' := by
  induction h
  case nil             => trivial
  case node b c n hc hn =>
    simp only [members, List.mem_cons, List.mem_append] at hk
    refine ⟨fun x hx => ?_, hc ho.2.1 fun x hx => hk x (by tauto), hn ho.2.2 fun x hx => hk x (by tauto)⟩
    rw [hk b (.inl rfl), hk x (by tauto)]
    exact ho.1 x hx

theorem WellFormed.congr (hw : h.WellFormed key) (hk : ∀ x ∈ h.members, key' x = key x) :
    h.WellFormed key' :=
  ⟨hw.tree, hw.ordered.congr hk⟩

theorem isTree_single (a : α) (c : PairingHeap α) : (node a c nil).IsTree :=
  rfl

theorem wellFormed_nil (key : α → κ) : (nil : PairingHeap α).WellFormed key :=
  ⟨trivial, trivial⟩

theorem wellFormed_single : (node a nil nil : PairingHeap α).WellFormed key :=
  ⟨rfl, by simp [members], trivial, trivial⟩

-- The root of a heap has the smallest key.
theorem WellFormed.front_le (hw : h.WellFormed key) (hf : h.front? = some a) (hb : b ∈ h.members) :
    key a ≤ key b := by
  match h, hf, hw.tree with
  | node _ c _, rfl, rfl =>
    simp only [members, List.append_nil, List.mem_cons] at hb
    obtain rfl | hb := hb
    case inl => exact le_rfl
    case inr => exact hw.ordered.1 b hb

theorem members_eq_nil : h.members = [] ↔ h.front? = none := by
  cases h <;> simp [members, front?]

theorem front_mem (hf : h.front? = some a) : a ∈ h.members := by
  match h, hf with
  | node _ _ _, rfl => simp [members]

theorem meld_node {c n d m : PairingHeap α} :
    meld key (node a c n) (node b d m) =
      if key b < key a then node b (node a c d) m else node a (node b d c) n :=
  rfl

theorem meld_members (key : α → κ) (ht : h.IsTree) (ht' : h'.IsTree) :
    (meld key h h').members.Perm (h.members ++ h'.members) := by
  match h, h', ht, ht' with
  | nil,        _,          _,   _   => simp [meld, members]
  | node _ _ _, nil,        _,   _   => simp [meld, members]
  | node a c _, node b d _, rfl, rfl =>
    rw [meld_node]
    split
    case isTrue =>
      simp only [members, List.append_nil, ← List.cons_append]
      exact List.perm_middle.symm
    case isFalse =>
      simp only [members, List.append_nil, List.cons_append]
      exact .cons _ <| .trans (.cons _ List.perm_append_comm) List.perm_middle.symm

theorem IsTree.meld (key : α → κ) (ht : h.IsTree) (ht' : h'.IsTree) : (meld key h h').IsTree := by
  match h, h', ht, ht' with
  | nil,        _,          _,   ht' => exact ht'
  | node _ _ _, nil,        ht,  _   => exact ht
  | node _ _ _, node _ _ _, rfl, rfl =>
    rw [meld_node]
    split <;> rfl

theorem WellFormed.meld (hw : h.WellFormed key) (hw' : h'.WellFormed key) :
    (meld key h h').WellFormed key := by
  match h, h', hw.tree, hw'.tree with
  | nil,        _,          _,   _   => simpa [PairingHeap.meld] using hw'
  | node _ _ _, nil,        _,   _   => simpa [PairingHeap.meld] using hw
  | node a c _, node b d _, rfl, rfl =>
    rw [meld_node]
    split
    case isTrue hl =>
      refine ⟨rfl, fun x hx => ?_, ⟨hw.ordered.1, hw.ordered.2.1, hw'.ordered.2.1⟩, trivial⟩
      simp only [members, List.mem_cons, List.mem_append] at hx
      obtain rfl | hx | hx := hx
      · exact hl.le
      · exact hl.le.trans (hw.ordered.1 x hx)
      · exact hw'.ordered.1 x hx
    case isFalse hl =>
      refine ⟨rfl, fun x hx => ?_, ⟨hw'.ordered.1, hw'.ordered.2.1, hw.ordered.2.1⟩, trivial⟩
      simp only [members, List.mem_cons, List.mem_append] at hx
      obtain rfl | hx | hx := hx
      · exact not_lt.mp hl
      · exact (not_lt.mp hl).trans (hw'.ordered.1 x hx)
      · exact hw.ordered.1 x hx

theorem Ordered.tree {c n : PairingHeap α} (ho : (node a c n).Ordered key) :
    (node a c nil).WellFormed key :=
  ⟨rfl, ho.1, ho.2.1, trivial⟩

theorem WellFormed.mergePairs (hr : r.WellFormed key) (ho : h.Ordered key) :
    (mergePairs key r h).WellFormed key := by
  fun_induction PairingHeap.mergePairs key r h
  case case1            => exact hr
  case case2            => exact hr.meld ho.tree
  case case3 a c b d n hi => exact hi (hr.meld (ho.tree.meld ho.2.2.tree)) ho.2.2.2.2

theorem IsTree.mergePairs (key : α → κ) (hr : r.IsTree) : (mergePairs key r h).IsTree := by
  fun_induction PairingHeap.mergePairs key r h
  case case1              => exact hr
  case case2              => exact hr.meld key (isTree_single ..)
  case case3 a c b d n hi => exact hi (hr.meld key ((isTree_single ..).meld key (isTree_single ..)))

theorem mergePairs_members (key : α → κ) (hr : r.IsTree) :
    (mergePairs key r h).members.Perm (r.members ++ h.members) := by
  fun_induction PairingHeap.mergePairs key r h
  case case1            => simp [members]
  case case2            => exact meld_members key hr (isTree_single ..)
  case case3 r a c b d n hi =>
    have hm := (isTree_single a c).meld key (isTree_single b d)
    refine (hi (hr.meld key hm)).trans ?_
    refine ((meld_members key hr hm).append_right _).trans ?_
    have hp := meld_members key (isTree_single a c) (isTree_single b d)
    refine ((hp.append_left _).append_right _).trans ?_
    simp [members]

theorem WellFormed.push (hw : h.WellFormed key) : (push key a h).WellFormed key :=
  hw.meld wellFormed_single

theorem WellFormed.push_members (hw : h.WellFormed key) :
    (PairingHeap.push key a h).members.Perm (a :: h.members) :=
  (meld_members key hw.tree (isTree_single ..)).trans List.perm_append_comm

variable [DecidableEq α]

theorem cut_eq_none : cut a h = none ↔ a ∉ h.members := by
  induction h
  case nil              => simp [cut, members]
  case node b c n hc hn =>
    by_cases hab : a = b
    case pos => simp [cut, members, hab]
    case neg =>
      cases he : cut a c
      case none   => simp [cut, members, hab, he, hn, hc.mp he]
      case some p => simp [cut, members, hab, he, not_not.mp (mt hc.mpr (by simp [he]))]

-- Cutting a node leaves a forest of the other nodes beside its children.
theorem cut_members (he : cut a h = some (h', k)) :
    h.members.Perm (a :: (h'.members ++ k.members)) := by
  induction h generalizing h' k
  case nil              => simp [cut] at he
  case node b c n hc hn =>
    by_cases hab : a = b
    case pos =>
      simp only [cut, hab, if_true, Option.some.injEq, Prod.mk.injEq] at he
      obtain ⟨rfl, rfl⟩ := he
      exact hab ▸ .cons _ List.perm_append_comm
    case neg =>
      simp only [cut, hab, if_false] at he
      split at he
      case h_1 c' k' hc' =>
        obtain ⟨rfl, rfl⟩ := he
        refine .trans (.cons _ ((hc hc').append_right _)) ?_
        simp only [members, List.cons_append, List.append_assoc]
        exact .trans (.swap ..) (.cons _ (.cons _ (.append_left _ List.perm_append_comm)))
      case h_2 =>
        obtain ⟨⟨n', k'⟩, hn', he⟩ := Option.map_eq_some_iff.mp he
        obtain ⟨rfl, rfl⟩ := he
        refine .trans (.cons _ ((hn hn').append_left _)) ?_
        simp only [members, List.cons_append, List.append_assoc]
        exact .trans (.cons _ List.perm_middle) (.swap ..)

theorem Ordered.cut (ho : h.Ordered key) (he : cut a h = some (h', k)) :
    h'.Ordered key ∧ k.Ordered key := by
  induction h generalizing h' k
  case nil              => simp [PairingHeap.cut] at he
  case node b c n hc hn =>
    by_cases hab : a = b
    case pos =>
      simp only [PairingHeap.cut, hab, if_true, Option.some.injEq, Prod.mk.injEq] at he
      obtain ⟨rfl, rfl⟩ := he
      exact ⟨ho.2.2, ho.2.1⟩
    case neg =>
      simp only [PairingHeap.cut, hab, if_false] at he
      split at he
      case h_1 c' k' hc' =>
        obtain ⟨rfl, rfl⟩ := he
        have ⟨ho', hk⟩ := hc ho.2.1 hc'
        exact ⟨⟨fun x hx => ho.1 x ((cut_members hc').mem_iff.mpr (by simp [hx])), ho', ho.2.2⟩, hk⟩
      case h_2 =>
        obtain ⟨⟨n', k'⟩, hn', he⟩ := Option.map_eq_some_iff.mp he
        obtain ⟨rfl, rfl⟩ := he
        have ⟨ho', hk⟩ := hn ho.2.2 hn'
        exact ⟨⟨ho.1, ho.2.1, ho'⟩, hk⟩

theorem IsTree.cut (ht : h.IsTree) (he : cut a h = some (h', k)) : h'.IsTree := by
  match h, ht with
  | node b c _, rfl =>
    simp only [PairingHeap.cut, Option.map_none] at he
    split at he
    case isTrue  => obtain ⟨rfl, rfl⟩ := he; trivial
    case isFalse =>
      split at he
      case h_1 => obtain ⟨rfl, rfl⟩ := he; rfl
      case h_2 => cases he

theorem WellFormed.erase (hw : h.WellFormed key) : (erase key a h).WellFormed key := by
  unfold PairingHeap.erase
  split
  case h_1         => exact hw
  case h_2 h' k he =>
    have ⟨ho, hk⟩ := hw.ordered.cut he
    exact WellFormed.meld ⟨hw.tree.cut he, ho⟩ ((wellFormed_nil key).mergePairs hk)

theorem IsTree.erase_members (key : α → κ) (ht : h.IsTree) (ha : a ∈ h.members) :
    h.members.Perm (a :: (erase key a h).members) := by
  unfold PairingHeap.erase
  split
  case h_1 he      => exact absurd ha (cut_eq_none.mp he)
  case h_2 h' k he =>
    have hm := mergePairs_members (r := nil) (h := k) key trivial
    have hc := meld_members key (ht.cut he) (IsTree.mergePairs (r := nil) (h := k) key trivial)
    exact (cut_members he).trans (.cons _ (hc.trans (hm.append_left _)).symm)

theorem erase_of_not_mem (ha : a ∉ h.members) : erase key a h = h := by
  simp [erase, cut_eq_none.mpr ha]

end PairingHeap
