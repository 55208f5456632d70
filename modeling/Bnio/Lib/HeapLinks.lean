import Bnio.Lib.PairingHeap

-- Pairing heaps whose links are stored in their nodes: `child` is the first child, `next` the sibling
-- that follows, and `previous` the sibling before, or the parent of a first child.
structure HeapLinks (ν : Type*) where
  previous : ν → Option ν
  child : ν → Option ν
  next : ν → Option ν

namespace HeapLinks

variable {ν κ : Type*} (L : HeapLinks ν)

-- The links of one node.
def links (n : ν) : Option ν × Option ν × Option ν :=
  (L.previous n, L.child n, L.next n)

-- The forest `t` starts at the node `first`, and `p` is the `previous` of that node.
def Forest : Option ν → PairingHeap ν → Option ν → Prop
  | _, .nil,        first => first = none
  | p, .node a c n, first =>
    first = some a ∧ L.previous a = p ∧ Forest (some a) c (L.child a) ∧ Forest (some a) n (L.next a)

section Operations

variable [DecidableEq ν]

def setPrevious (n : ν) (v : Option ν) : HeapLinks ν :=
  { L with previous := Function.update L.previous n v }

def setChild (n : ν) (v : Option ν) : HeapLinks ν :=
  { L with child := Function.update L.child n v }

def setNext (n : ν) (v : Option ν) : HeapLinks ν :=
  { L with next := Function.update L.next n v }

def detach (n : ν) : HeapLinks ν :=
  (L.setPrevious n none).setNext n none

def clear (n : ν) : HeapLinks ν :=
  ((L.setPrevious n none).setChild n none).setNext n none

-- Links `b` as the first child of `a`.
def link (a b : ν) : HeapLinks ν :=
  let L₁ := (L.setPrevious b (some a)).setNext b (L.child a)
  let L₂ := match L.child a with
    | none   => L₁
    | some c => L₁.setPrevious c (some b)
  L₂.setChild a (some b)

-- Takes `n` out of its list of siblings; its own links stay as they are.
def unlink (n : ν) : HeapLinks ν :=
  let L₁ := match L.previous n with
    | none   => L
    | some q => if L.child q = some n then L.setChild q (L.next n) else L.setNext q (L.next n)
  match L.next n with
  | none   => L₁
  | some m => L₁.setPrevious m (L.previous n)

variable [LinearOrder κ] (key : ν → κ)

def meld (first second : Option ν) : HeapLinks ν × Option ν :=
  match first, second with
  | none,   root   => (L, root)
  | root,   none   => (L, root)
  | some a, some b => if key b < key a then (L.link b a, some b) else (L.link a b, some a)

-- The loop of merging pairs, of at most `fuel` rounds.
def mergePairs : Nat → HeapLinks ν → Option ν → Option ν → Option (HeapLinks ν × Option ν)
  | _,        L, result, none   => some (L, result)
  | 0,        _, _,      some _ => none
  | fuel + 1, L, result, some a =>
    let second := L.next a
    let remaining := second.bind L.next
    let L := L.detach a
    let L := second.elim L L.detach
    let (L, pair) := L.meld key (some a) second
    let (L, result) := L.meld key result pair
    mergePairs fuel L result remaining

-- The root of the heap without `n`; the children of `n` are melded into it.
def erase (fuel : Nat) (root : Option ν) (n : ν) : Option (HeapLinks ν × Option ν) := do
  let root := if L.previous n = none then L.next n else root
  let L := L.unlink n
  let (L, replacement) ← mergePairs key fuel L none (L.child n)
  some ((L.clear n).meld key root replacement)

end Operations

variable {L} {L' : HeapLinks ν} {t : PairingHeap ν} {p q first root : Option ν} {a b m n : ν}

namespace Forest

theorem front (h : L.Forest p t first) : first = t.front? := by
  cases t
  case nil  => exact h
  case node => exact h.1

theorem first_mem (h : L.Forest p t (some a)) : a ∈ t.members :=
  PairingHeap.front_mem h.front.symm

theorem congr (h : L.Forest p t first) (hl : ∀ m ∈ t.members, L'.links m = L.links m) :
    L'.Forest p t first := by
  induction t generalizing p first
  case nil              => exact h
  case node a c n hc hn =>
    have ha := hl a (by simp [PairingHeap.members])
    simp only [links, Prod.mk.injEq] at ha
    refine ⟨h.1, ha.1.trans h.2.1, ha.2.1 ▸ hc h.2.2.1 fun m hm => ?_,
      ha.2.2 ▸ hn h.2.2.2 fun m hm => ?_⟩
    · exact hl m (by simp [PairingHeap.members, hm])
    · exact hl m (by simp [PairingHeap.members, hm])

-- Only the `previous` of the first node changes.
theorem repoint (h : L.Forest p t first) (hd : t.members.Nodup)
    (hp : ∀ m, first = some m → L'.previous m = q ∧ L'.child m = L.child m ∧ L'.next m = L.next m)
    (hl : ∀ m ∈ t.members, first ≠ some m → L'.links m = L.links m) : L'.Forest q t first := by
  cases t
  case nil        => exact h
  case node a c n =>
    have ⟨ha, hd⟩ := List.nodup_cons.mp hd
    have ⟨hp, hc, hn⟩ := hp a h.1
    refine ⟨h.1, hp, hc ▸ h.2.2.1.congr fun m hm => ?_, hn ▸ h.2.2.2.congr fun m hm => ?_⟩
    · exact hl m (by simp [PairingHeap.members, hm]) (by rw [h.1]; rintro ⟨⟩; simp [hm] at ha)
    · exact hl m (by simp [PairingHeap.members, hm]) (by rw [h.1]; rintro ⟨⟩; simp [hm] at ha)

theorem next_mem (h : L.Forest p t first) (hn : n ∈ t.members) (hm : L.next n = some m) :
    m ∈ t.members := by
  induction t generalizing p first
  case nil              => simp [PairingHeap.members] at hn
  case node a c t hc ht =>
    simp only [PairingHeap.members, List.mem_cons, List.mem_append] at hn ⊢
    obtain rfl | hn | hn := hn
    · exact .inr (.inr (first_mem (hm ▸ h.2.2.2)))
    · exact .inr (.inl (hc h.2.2.1 hn))
    · exact .inr (.inr (ht h.2.2.2 hn))

-- Every node apart from the first one is preceded by another node of the forest.
theorem previous_mem (h : L.Forest p t first) (hn : n ∈ t.members) :
    first = some n ∧ L.previous n = p ∨ ∃ m ∈ t.members, L.previous n = some m := by
  induction t generalizing p first
  case nil              => simp [PairingHeap.members] at hn
  case node a c t hc ht =>
    simp only [PairingHeap.members, List.mem_cons, List.mem_append] at hn ⊢
    obtain rfl | hn | hn := hn
    · exact .inl ⟨h.1, h.2.1⟩
    · obtain h | ⟨m, hm, h⟩ := hc h.2.2.1 hn
      · exact .inr ⟨a, .inl rfl, h.2⟩
      · exact .inr ⟨m, .inr (.inl hm), h⟩
    · obtain h | ⟨m, hm, h⟩ := ht h.2.2.2 hn
      · exact .inr ⟨a, .inl rfl, h.2⟩
      · exact .inr ⟨m, .inr (.inr hm), h⟩

theorem previous_first (h : L.Forest p t (some n)) : L.previous n = p := by
  cases t
  case nil  => cases h
  case node => exact Option.some.inj h.1 ▸ h.2.1

end Forest

variable [DecidableEq ν]

theorem link_links : (L.link a b).links m =
    (if L.child a = some m then some b else if m = b then some a else L.previous m,
      if m = a then some b else L.child m, if m = b then L.child a else L.next m) := by
  unfold link links setPrevious setChild setNext
  cases hc : L.child a <;> simp [Function.update_apply, eq_comm]

theorem detach_links : (L.detach n).links m =
    if m = n then (none, L.child m, none) else L.links m := by
  unfold detach links setPrevious setNext
  by_cases h : m = n <;> simp [h]

theorem clear_links : (L.clear n).links m = if m = n then (none, none, none) else L.links m := by
  unfold clear links setPrevious setNext setChild
  by_cases h : m = n <;> simp [h]

theorem link_frame (ha : m ≠ a) (hb : m ≠ b) (hc : L.child a ≠ some m) :
    (L.link a b).links m = L.links m := by
  rw [link_links, if_neg hc, if_neg hb, if_neg ha, if_neg hb]
  rfl

theorem Forest.link {c d : PairingHeap ν} (ha : L.Forest none (.node a c .nil) (some a))
    (hb : L.Forest none (.node b d .nil) (some b))
    (hn : (a :: (c.members ++ b :: d.members)).Nodup) :
    (L.link a b).Forest none (.node a (.node b d c) .nil) (some a) := by
  simp only [List.nodup_cons, List.mem_append, List.mem_cons, not_or, List.nodup_append] at hn
  obtain ⟨⟨hac, hab, had⟩, hc, ⟨hbd, hd⟩, hcd⟩ := hn
  have hcb : ∀ m ∈ c.members, m ≠ b := fun m hm => hcd m hm b (by simp)
  have hcd : ∀ m ∈ c.members, m ∉ d.members := fun m hm hmd => hcd m hm m (by simp [hmd]) rfl
  -- The first child of `a` is in `c`.
  have hca : ∀ m, L.child a = some m → m ∈ c.members := fun m hm =>
    Forest.first_mem (hm ▸ ha.2.2.1)
  have hla := link_links (L := L) (a := a) (b := b) (m := a)
  have hlb := link_links (L := L) (a := a) (b := b) (m := b)
  rw [if_neg fun h => hac (hca a h), if_neg hab, if_pos rfl, if_neg hab] at hla
  rw [if_neg fun h => hcb b (hca b h) rfl, if_pos rfl, if_neg (Ne.symm hab), if_pos rfl] at hlb
  simp only [links, Prod.mk.injEq] at hla hlb
  refine ⟨rfl, hla.1.trans ha.2.1, ?_, hla.2.2.trans ha.2.2.2⟩
  rw [hla.2.1]
  refine ⟨rfl, hlb.1, ?_, ?_⟩
  · rw [hlb.2.1]
    refine hb.2.2.1.congr fun m hm => link_frame ?_ ?_ fun h => hcd m (hca m h) hm
    · exact ne_of_mem_of_not_mem hm had
    · exact ne_of_mem_of_not_mem hm hbd
  · rw [hlb.2.2]
    refine ha.2.2.1.repoint hc (fun m hm => ?_) fun m hm hf => link_frame ?_ (hcb m hm) hf
    · have hl := link_links (L := L) (a := a) (b := b) (m := m)
      have hma : m ≠ a := ne_of_mem_of_not_mem (hca m hm) hac
      rw [if_pos hm, if_neg hma, if_neg (hcb m (hca m hm))] at hl
      simpa [links] using hl
    · exact ne_of_mem_of_not_mem hm hac

section Meld

variable {κ : Type*} [LinearOrder κ] {key : ν → κ} {h h' k r : PairingHeap ν} {second : Option ν}

-- What melding two heaps does: their nodes form the melded heap, and no other node is touched.
theorem Forest.meld (key : ν → κ) (hf : L.Forest none h first) (hs : L.Forest none h' second)
    (ht : h.IsTree) (ht' : h'.IsTree) (hn : (h.members ++ h'.members).Nodup) :
    (L.meld key first second).1.Forest none (h.meld key h') (L.meld key first second).2 ∧
      ∀ m ∉ h.members ++ h'.members, (L.meld key first second).1.links m = L.links m := by
  match h, h', ht, ht' with
  | .nil, _, _, _ =>
    obtain rfl := hf
    exact ⟨hs, fun _ _ => rfl⟩
  | .node a c _, .nil, _, _ =>
    obtain rfl := hs
    obtain rfl := hf.1
    exact ⟨hf, fun _ _ => rfl⟩
  | .node a c _, .node b d _, rfl, rfl =>
    obtain rfl := hf.1
    obtain rfl := hs.1
    simp only [PairingHeap.members, List.append_nil, List.cons_append] at hn
    rw [PairingHeap.meld_node]
    simp only [HeapLinks.meld]
    split
    case isTrue =>
      refine ⟨hs.link hf ?_, fun m hm => link_frame ?_ ?_ fun hc => ?_⟩
      · have hp : (a :: c.members ++ b :: d.members).Perm (b :: d.members ++ a :: c.members) :=
          List.perm_append_comm
        exact hp.nodup_iff.mp hn
      · rintro rfl; simp [PairingHeap.members] at hm
      · rintro rfl; simp [PairingHeap.members] at hm
      · have := Forest.first_mem (hc ▸ hs.2.2.1)
        simp [PairingHeap.members, this] at hm
    case isFalse =>
      refine ⟨hf.link hs hn, fun m hm => link_frame ?_ ?_ fun hc => ?_⟩
      · rintro rfl; simp [PairingHeap.members] at hm
      · rintro rfl; simp [PairingHeap.members] at hm
      · have := Forest.first_mem (hc ▸ hf.2.2.1)
        simp [PairingHeap.members, this] at hm

-- A node that is taken out of its list of siblings is a heap of its own.
theorem Forest.detach {c n : PairingHeap ν} (hf : L.Forest p (.node a c n) first)
    (hn : a ∉ c.members) : (L.detach a).Forest none (.node a c .nil) (some a) := by
  have hl := detach_links (L := L) (n := a) (m := a)
  simp only [if_true, links, Prod.mk.injEq] at hl
  refine ⟨rfl, hl.1, hl.2.1 ▸ hf.2.2.1.congr fun m hm => ?_, hl.2.2⟩
  rw [detach_links, if_neg (ne_of_mem_of_not_mem hm hn)]

theorem detach_frame (h : m ≠ n) : (L.detach n).links m = L.links m := by
  rw [detach_links, if_neg h]

theorem Forest.mergePairs {fuel : Nat} (key : ν → κ) (hr : L.Forest none r root) (hk : L.Forest p k first)
    (ht : r.IsTree) (hn : (r.members ++ k.members).Nodup) (hf : k.members.length ≤ fuel) :
    ∃ L' root', HeapLinks.mergePairs key fuel L root first = some (L', root') ∧
      L'.Forest none (r.mergePairs key k) root' ∧
      ∀ m ∉ r.members ++ k.members, L'.links m = L.links m := by
  fun_induction PairingHeap.mergePairs key r k generalizing L root first p fuel
  case case1 r =>
    obtain rfl := hk
    exact ⟨L, root, by cases fuel <;> rfl, hr, fun _ _ => rfl⟩
  case case2 r a c =>
    obtain ⟨rfl, -, -, hnext⟩ := id hk
    obtain _ | fuel := fuel
    case zero => simp [PairingHeap.members] at hf
    case succ =>
      obtain ⟨hac, har⟩ : a ∉ c.members ∧ a ∉ r.members := by
        simp only [PairingHeap.members, List.append_nil] at hn
        grind
      have hr' := hr.congr fun m hm => detach_frame (L := L) (ne_of_mem_of_not_mem hm har)
      obtain ⟨hm, hfr⟩ := hr'.meld key (hk.detach hac) ht rfl hn
      refine ⟨_, _, ?_, hm, fun m hm => (hfr m hm).trans (detach_frame ?_)⟩
      · have hnext : L.next a = none := hnext
        simp only [HeapLinks.mergePairs, hnext, Option.bind_none, Option.elim_none]
        cases fuel <;> rfl
      · rintro rfl
        simp [PairingHeap.members] at hm
  case case3 r a c b d n hi =>
    obtain ⟨rfl, -, -, hb⟩ := id hk
    obtain ⟨hnext, -, -, hrest⟩ := id hb
    simp only [PairingHeap.members, List.length_cons, List.length_append] at hn hf
    obtain _ | fuel := fuel
    case zero => omega
    case succ =>
      -- Each of the four parts keeps its shape when `a` and `b` are detached.
      have hd : ∀ m, m ≠ a → m ≠ b → ((L.detach a).detach b).links m = L.links m := fun m ha hb =>
        (detach_frame hb).trans (detach_frame ha)
      have har : ∀ m ∈ r.members, m ≠ a ∧ m ≠ b := by grind
      have han : ∀ m ∈ n.members, m ≠ a ∧ m ≠ b := by grind
      have hac : a ∉ c.members ∧ b ∉ d.members ∧ a ≠ b ∧ b ∉ c.members ∧ a ∉ d.members := by grind
      have hr' := hr.congr fun m hm => hd m (har m hm).1 (har m hm).2
      have hn' := hrest.congr fun m hm => hd m (han m hm).1 (han m hm).2
      have ha' : ((L.detach a).detach b).Forest none (.node a c .nil) (some a) := by
        refine (hk.detach hac.1).congr fun m hm => detach_frame ?_
        simp only [PairingHeap.members, List.append_nil, List.mem_cons] at hm
        grind
      have hb' : ((L.detach a).detach b).Forest none (.node b d .nil) (some b) := by
        refine (hb.congr fun m hm => detach_frame ?_).detach hac.2.1
        simp only [PairingHeap.members, List.mem_cons, List.mem_append] at hm
        grind
      obtain ⟨hp, hpf⟩ := ha'.meld key hb' rfl rfl (by simp [PairingHeap.members]; grind)
      have hpm := PairingHeap.meld_members key (PairingHeap.isTree_single a c)
        (PairingHeap.isTree_single b d)
      have hpt := (PairingHeap.isTree_single a c).meld key (PairingHeap.isTree_single b d)
      have hpr : (r.members ++ ((PairingHeap.node a c .nil).meld key (.node b d .nil)).members ++
          n.members).Perm (r.members ++ a :: (c.members ++ b :: (d.members ++ n.members))) := by
        refine ((hpm.append_left _).append_right _).trans ?_
        simp [PairingHeap.members]
      have hnd := List.nodup_append.mp (hpr.nodup_iff.mpr hn)
      have hr'' := hr'.congr fun m hm => hpf m fun hx =>
        (List.nodup_append.mp hnd.1).2.2 m hm m (hpm.mem_iff.mpr hx) rfl
      obtain ⟨hq, hqf⟩ := hr''.meld key hp ht hpt hnd.1
      have hqm := PairingHeap.meld_members key ht hpt
      have hn'' := hn'.congr fun m hm =>
        have hx := fun hx => hnd.2.2 m hx m hm rfl
        (hqf m hx).trans (hpf m fun h => hx (List.mem_append_right _ (hpm.mem_iff.mpr h)))
      obtain ⟨L', root', he, hF, hfr⟩ := hi hq hn'' (ht.meld key hpt)
        ((hqm.append_right _).nodup_iff.mpr (hpr.nodup_iff.mpr hn))
        (by omega : n.members.length ≤ fuel)
      refine ⟨L', root', ?_, hF, fun m hm => ?_⟩
      · simp only [HeapLinks.mergePairs, hnext, Option.bind_some, Option.elim_some]
        exact he
      · have hx := mt (hpr.mem_iff (a := m)).mp hm
        simp only [List.mem_append, not_or] at hx
        refine (hfr m ?_).trans <| (hqf m ?_).trans <| (hpf m ?_).trans (hd m ?_ ?_)
        · simpa [hqm.mem_iff] using hx
        · simpa using hx.1
        · simpa [hpm.mem_iff] using hx.1.2
        · rintro rfl; simp [PairingHeap.members] at hm
        · rintro rfl; simp [PairingHeap.members] at hm

end Meld

-- How a node is taken out of its list of siblings: whoever precedes it skips it.
theorem unlink_previous : (L.unlink n).previous m =
    if L.next n = some m then L.previous n else L.previous m := by
  cases hp : L.previous n <;> cases hn : L.next n <;>
    simp only [unlink, hp, hn, setPrevious, setChild, setNext] <;> try split
  all_goals grind [Function.update_apply]

theorem unlink_child : (L.unlink n).child m =
    if L.previous n = some m ∧ L.child m = some n then L.next n else L.child m := by
  cases hp : L.previous n <;> cases hn : L.next n <;>
    simp only [unlink, hp, hn, setPrevious, setChild, setNext] <;> try split
  all_goals grind [Function.update_apply]

theorem unlink_next : (L.unlink n).next m =
    if L.previous n = some m ∧ L.child m ≠ some n then L.next n else L.next m := by
  cases hp : L.previous n <;> cases hn : L.next n <;>
    simp only [unlink, hp, hn, setPrevious, setChild, setNext] <;> try split
  all_goals grind [Function.update_apply]

section Erase

variable {κ : Type*} [LinearOrder κ] {key : ν → κ} {h h' k : PairingHeap ν}

theorem unlink_frame (hp : L.previous n ≠ some m) (hn : L.next n ≠ some m) :
    (L.unlink n).links m = L.links m := by
  simp [links, unlink_previous, unlink_child, unlink_next, hp, hn]

-- Cutting `n` out of a forest leaves the forest of the other nodes, and the children of `n` for
-- themselves. By induction over the forest, with `p` what precedes it: the node that leads to `n` is
-- `p`, or a node of the forest.
theorem Forest.unlink (hf : L.Forest p t first) (hd : t.members.Nodup)
    (hp : ∀ m ∈ t.members, p ≠ some m) (hc : t.cut n = some (h', k)) :
    (L.unlink n).Forest p h' (if first = some n then L.next n else first) ∧
      (L.unlink n).Forest (some n) k (L.child n) := by
  induction t generalizing p first h' k
  case nil                => simp [PairingHeap.cut] at hc
  case node b c t hcc hct =>
    obtain ⟨rfl, hpb, hfc, hft⟩ := hf
    simp only [PairingHeap.members, List.nodup_cons, List.nodup_append, List.mem_append, not_or,
      List.mem_cons] at hd hp
    obtain ⟨⟨hbc, hbt⟩, hdc, hdt, hdis⟩ := hd
    have hdis : ∀ m ∈ c.members, m ∉ t.members := fun m hm hmt => hdis m hm m hmt rfl
    by_cases hb : n = b
    case pos =>
      subst hb
      simp only [PairingHeap.cut, if_true, Option.some.injEq, Prod.mk.injEq] at hc
      obtain ⟨rfl, rfl⟩ := hc
      have hpt : ∀ m ∈ t.members, L.previous n ≠ some m := fun m hm => hpb ▸ hp m (by simp [hm])
      have hnt : ∀ m, L.next n = some m → m ∈ t.members := fun m hm => first_mem (hm ▸ hft)
      rw [if_pos rfl]
      refine ⟨hft.repoint hdt (fun m hm => ?_) fun m hm hn => unlink_frame (hpt m hm) hn,
        hfc.congr fun m hm => unlink_frame (hpb ▸ hp m (by simp [hm])) fun hn => ?_⟩
      · simp [unlink_previous, unlink_child, unlink_next, hm, hpb, hp m (by simp [hnt m hm])]
      · exact hdis m hm (hnt m hn)
    case neg =>
      have hbn : ¬some b = some n := fun h => hb (Option.some.inj h).symm
      rw [if_neg hbn]
      simp only [PairingHeap.cut, hb, if_false] at hc
      split at hc
      case h_1 c' k' hc' =>
        obtain ⟨rfl, rfl⟩ := hc
        have hn : n ∈ c.members := by
          by_contra hn
          simp [PairingHeap.cut_eq_none.mpr hn] at hc'
        have hnc : ∀ m, L.next n = some m → m ∈ c.members := fun m => hfc.next_mem hn
        obtain ⟨ih, hk⟩ := hcc hfc hdc (fun m hm he => hbc (Option.some.inj he ▸ hm)) hc'
        -- The node before `n` is `b`, when `n` is its first child, or a node of `c`.
        have hpn : L.child b = some n ∧ L.previous n = some b ∨
            ∃ m ∈ c.members, L.previous n = some m := hfc.previous_mem hn
        have hfn : L.child b = some n → L.previous n = some b := fun h => previous_first (h ▸ hfc)
        refine ⟨⟨rfl, ?_, ?_, ?_⟩, hk⟩
        · rw [unlink_previous, if_neg fun h => hbc (hnc b h), hpb]
        · have he : (L.unlink n).child b = if L.child b = some n then L.next n else L.child b := by
            rw [unlink_child]
            grind
          exact he ▸ ih
        · have he : (L.unlink n).next b = L.next b := by
            rw [unlink_next]
            grind
          exact he ▸ hft.congr fun m hm => unlink_frame (by grind) (by grind)
      case h_2 =>
        obtain ⟨⟨t', k'⟩, ht', he⟩ := Option.map_eq_some_iff.mp hc
        obtain ⟨rfl, rfl⟩ := he
        have hn : n ∈ t.members := by
          by_contra hn
          simp [PairingHeap.cut_eq_none.mpr hn] at ht'
        have hnt : ∀ m, L.next n = some m → m ∈ t.members := fun m => hft.next_mem hn
        obtain ⟨ih, hk⟩ := hct hft hdt (fun m hm he => hbt (Option.some.inj he ▸ hm)) ht'
        have hpn : L.next b = some n ∧ L.previous n = some b ∨
            ∃ m ∈ t.members, L.previous n = some m := hft.previous_mem hn
        have hfn : L.next b = some n → L.previous n = some b := fun h => previous_first (h ▸ hft)
        have hbc' : L.child b ≠ some n := fun h => hdis n (first_mem (h ▸ hfc)) hn
        refine ⟨⟨rfl, ?_, ?_, ?_⟩, hk⟩
        · rw [unlink_previous, if_neg fun h => hbt (hnt b h), hpb]
        · have he : (L.unlink n).child b = L.child b := by
            rw [unlink_child, if_neg fun h => hbc' h.2]
          exact he ▸ hfc.congr fun m hm => unlink_frame (by grind) (by grind)
        · have he : (L.unlink n).next b = if L.next b = some n then L.next n else L.next b := by
            rw [unlink_next]
            grind
          exact he ▸ ih

-- Erasing a node: the others form the heap without it, its own links are cleared and nothing else
-- changes.
theorem Forest.erase {fuel : Nat} (key : ν → κ) (hf : L.Forest none h root) (ht : h.IsTree)
    (hd : h.members.Nodup) (hn : n ∈ h.members) (hl : h.members.length ≤ fuel) :
    ∃ L' root', L.erase key fuel root n = some (L', root') ∧
      L'.Forest none (h.erase key n) root' ∧ L'.links n = (none, none, none) ∧
      ∀ m ∉ h.members, L'.links m = L.links m := by
  obtain ⟨⟨h', k⟩, hc⟩ := Option.ne_none_iff_exists'.mp (mt PairingHeap.cut_eq_none.mp (by simpa))
  have hm := PairingHeap.cut_members hc
  obtain ⟨hnm, hdis⟩ := List.nodup_cons.mp (hm.nodup_iff.mp hd)
  simp only [List.mem_append, not_or] at hnm
  obtain ⟨hu, hk⟩ := hf.unlink hd (by simp) hc
  have hroot : (if L.previous n = none then L.next n else root) =
      if root = some n then L.next n else root := by
    obtain ⟨hr, hp⟩ | ⟨m, _, hp⟩ := hf.previous_mem hn
    · simp [hr, hp]
    · have hr : root ≠ some n := fun hr => by simp [previous_first (hr ▸ hf)] at hp
      simp [hp, hr]
  have hchild : (L.unlink n).child n = L.child n := by
    rw [unlink_child, if_neg fun h => hnm.2 (first_mem (h.2 ▸ hk))]
  have hlen : k.members.length ≤ fuel := by
    have := hm.length_eq
    simp only [List.length_cons, List.length_append] at this
    omega
  obtain ⟨hdh, hdk, hhk⟩ := List.nodup_append.mp hdis
  have hkd : (PairingHeap.nil.members ++ k.members).Nodup := by simpa [PairingHeap.members] using hdk
  have hnil : (L.unlink n).Forest none PairingHeap.nil none := rfl
  obtain ⟨L₂, new, he, hF, hfr⟩ := hnil.mergePairs key hk trivial hkd hlen
  simp only [PairingHeap.members, List.nil_append] at hfr
  have hmk := PairingHeap.mergePairs_members (r := .nil) (h := k) key trivial
  simp only [PairingHeap.members, List.nil_append] at hmk
  -- Nothing of this touches the rest of the heap, nor do the links of `n` itself.
  have hclear : ∀ m, m ≠ n → (L₂.clear n).links m = L₂.links m := fun m hm => by
    rw [clear_links, if_neg hm]
  have hu' := hu.congr fun m hm => (hclear m (ne_of_mem_of_not_mem hm hnm.1)).trans <|
    hfr m fun hx => hhk m hm m hx rfl
  have hF' := hF.congr fun m hm => hclear m (ne_of_mem_of_not_mem (hmk.mem_iff.mp hm) hnm.2)
  have hmm : ∀ m, m ∉ h'.members ++ (PairingHeap.nil.mergePairs key k).members ↔
      m ∉ h'.members ∧ m ∉ k.members := fun m => by simp [hmk.mem_iff]
  obtain ⟨hG, hgr⟩ := hu'.meld key hF' (ht.cut hc) (PairingHeap.IsTree.mergePairs key trivial)
    ((hmk.append_left _).nodup_iff.mpr hdis)
  generalize hr : (L₂.clear n).meld key (if root = some n then L.next n else root) new = result
    at hG hgr
  refine ⟨result.1, result.2, ?_, ?_, ?_, fun m hx => ?_⟩
  · simp [HeapLinks.erase, hchild, he, hroot, hr]
  · simpa [PairingHeap.erase, hc] using hG
  · rw [hgr n ((hmm n).mpr hnm), clear_links, if_pos rfl]
  · have hx' := mt hm.mem_iff.mpr hx
    simp only [List.mem_cons, List.mem_append, not_or] at hx'
    rw [hgr m ((hmm m).mpr hx'.2), hclear m hx'.1, hfr m hx'.2.2]
    refine unlink_frame (fun hp => ?_) fun hn' => hx (hf.next_mem hn hn')
    obtain ⟨_, h⟩ | ⟨q, hq, h⟩ := hf.previous_mem hn
    · simp [h] at hp
    · exact hx (Option.some.inj (h.symm.trans hp) ▸ hq)

end Erase

end HeapLinks
