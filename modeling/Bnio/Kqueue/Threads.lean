import Bnio.Kqueue.History

namespace Bnio.Kqueue

-- What a step keeps of the node of an operation that still waits: the node may get armed.
structure Registration.Stays (r r' : Registration) : Prop where
  operation : r'.operation = r.operation
  key : r'.key = r.key
  task : r'.task = r.task
  armed : r.armed → r'.armed

namespace Registration.Stays

variable {r r' r'' : Registration}

theorem refl : r.Stays r :=
  ⟨rfl, rfl, rfl, id⟩

theorem trans (h : r.Stays r') (h' : r'.Stays r'') : r.Stays r'' :=
  ⟨h'.operation.trans h.operation, h'.key.trans h.key, h'.task.trans h.task, h'.armed ∘ h.armed⟩

theorem of_body (h : r'.body = r.body) : r.Stays r' :=
  ⟨operation_eq h, key_eq h, task_eq h, fun ha => (armed_eq h).trans ha⟩

end Registration.Stays

namespace Context

variable {env : Env} {s s' s'' : Context} {n m t c : Node} {op : OpId} {k : Key}
variable {X Y F G : List OpId}

-- A node that `append_node` has linked behind itself.
def Stuck (s : Context) (n : Node) : Prop :=
  (s.regs n).waitPrev = some n

def Alone (s : Context) (n : Node) : Prop :=
  (s.regs n).waitNext = none ∧ (s.regs n).waitPrev = none

-- What holds of the registrations in every history, stranded and stuck waiters included: the queues
-- of one (ident, filter) may have fallen apart and have unarmed heads, but links and filters only
-- lead to nodes of operations that wait. The operations of `Y` are being registered.
structure Threaded (s : Context) (Y : List OpId) : Prop where
  woven : s.links.Woven
  key : ∀ {n m}, (s.regs n).waitNext = some m → (s.regs m).key = (s.regs n).key
  clean : ∀ {n}, (s.regs n).operation = none →
    (s.regs n).waitNext = none ∧ (s.regs n).waitPrev = none ∧ (s.regs n).armed = false
  owner : ∀ {n op}, (s.regs n).operation = some op → n.op = op ∧ n ∈ s.nodesOf n.op
  distinct : ∀ {n m}, (s.regs n).operation.isSome → (s.regs m).operation.isSome → n.op = m.op →
    (s.regs n).filter = (s.regs m).filter → n = m
  head : ∀ {n}, (s.regs n).armed → (s.regs n).waitPrev = none
  lone : ∀ {n}, s.Stuck n → (s.ops n.op).registrationCount ≤ 1
  single : ∀ {n}, (s.regs n).operation.isSome → (s.regs n).task ≠ .poll →
    (s.ops n.op).registrationCount ≤ 1
  kernel : ∀ {k op}, s.filters k = some op →
    ∃ n : Node, n.op = op ∧ (s.regs n).armed ∧ (s.regs n).key = k
  nodup : s.inflight.Nodup
  idle : ∀ {op}, op ∉ s.inflight → op ∉ Y → (s.ops op).registrationCount = 0

-- `s'` is `s` after the operations of `F` have gone from the inflight list to the CPU queue and those
-- of `X` have been worked on: every other operation waits as before.
structure Passes (s s' : Context) (X F : List OpId) : Prop where
  inflight : s.inflight.Perm (F ++ s'.inflight)
  localCpu : s'.localCpu.Perm (F ++ s.localCpu)
  spared : ∀ {op}, op ∈ F → op ∉ X
  stays : ∀ {n}, n.op ∉ F → n.op ∉ X → (s.regs n).Stays (s'.regs n)

theorem Passes.trans (h : s.Passes s' X F) (h' : s'.Passes s'' X G) : s.Passes s'' X (F ++ G) where
  inflight := by
    rw [List.append_assoc]
    exact h.inflight.trans (h'.inflight.append_left F)
  localCpu := by
    refine h'.localCpu.trans <| (h.localCpu.append_left G).trans ?_
    rw [← List.append_assoc]
    exact List.perm_append_comm.append_right _
  spared ho := (List.mem_append.mp ho).elim h.spared h'.spared
  stays ho hx := by
    have ⟨h₁, h₂⟩ := not_or.mp <| mt List.mem_append.mpr ho
    exact (h.stays h₁ hx).trans (h'.stays h₂ hx)

-- Moreover nodes are only taken out of queues, and armed.
structure Sheds (s s' : Context) (X F : List OpId) : Prop extends Passes s s' X F where
  count : ∀ {op}, op ∉ F → op ∉ X →
    (s'.ops op).registrationCount = (s.ops op).registrationCount
  clean : ∀ {n}, (s.regs n).operation = none → (s'.regs n).operation = none
  stuck : ∀ {n}, s'.Stuck n → s.Stuck n
  alone : ∀ {n}, s.Alone n → s'.Alone n

namespace Sheds

theorem refl : s.Sheds s X [] where
  inflight  := .refl _
  localCpu  := .refl _
  spared    := by simp
  count _ _ := rfl
  stays _ _ := .refl
  clean     := id
  stuck     := id
  alone     := id

theorem trans (h : s.Sheds s' X F) (h' : s'.Sheds s'' X G) : s.Sheds s'' X (F ++ G) where
  toPasses := h.toPasses.trans h'.toPasses
  count ho hx := by
    have ⟨h₁, h₂⟩ := not_or.mp <| mt List.mem_append.mpr ho
    rw [h'.count h₂ hx, h.count h₁ hx]
  clean := h'.clean ∘ h.clean
  stuck := h.stuck ∘ h'.stuck
  alone := h'.alone ∘ h.alone

-- Working on more operations says less about them, but none of them may have failed.
theorem widen {Z : List OpId} (h : s.Sheds s' X F) (hz : X ⊆ Z) (hf : ∀ {op}, op ∈ F → op ∉ Z) :
    s.Sheds s' Z F where
  inflight    := h.inflight
  localCpu    := h.localCpu
  spared      := hf
  count ho hx := h.count ho fun h => hx (hz h)
  stays ho hx := h.stays ho fun h => hx (hz h)
  clean       := h.clean
  stuck       := h.stuck
  alone       := h.alone

end Sheds

namespace Threaded

theorem operation_eq (h : s.Threaded Y) (hn : (s.regs n).operation.isSome) :
    (s.regs n).operation = some n.op := by
  have ⟨op, ho⟩ := Option.isSome_iff_exists.mp hn
  rw [ho, (h.owner ho).1]

theorem mem_nodesOf (h : s.Threaded Y) (hn : (s.regs n).operation.isSome) : n ∈ s.nodesOf n.op :=
  (h.owner (h.operation_eq hn)).2

theorem active (h : s.Threaded Y) (hn : (s.regs n).operation.isSome) :
    n.op ∈ s.inflight ∨ n.op ∈ Y := by
  by_contra hno
  have ⟨h₁, h₂⟩ := not_or.mp hno
  have hi := (Context.mem_nodesOf.mp <| h.mem_nodesOf hn).2.2
  rw [h.idle h₁ h₂] at hi
  exact Nat.not_lt_zero _ hi

theorem isSome_of_armed (h : s.Threaded Y) (ha : (s.regs n).armed) :
    (s.regs n).operation.isSome := by
  by_contra hn
  have hc := (h.clean (Option.not_isSome_iff_eq_none.mp hn)).2.2
  simp [ha] at hc

theorem isSome_of_prev (h : s.Threaded Y) (hp : (s.regs n).waitPrev = some m) :
    (s.regs n).operation.isSome := by
  by_contra hn
  have hc := (h.clean (Option.not_isSome_iff_eq_none.mp hn)).2.1
  simp [hp] at hc

-- The successor of a node belongs to another operation.
theorem next_op_ne (h : s.Threaded Y) (hn : (s.regs n).waitNext = some m) : m.op ≠ n.op := by
  have hp : (s.regs m).waitPrev = some n := h.woven.next hn
  have hi : (s.regs n).operation.isSome := by
    by_contra hno
    have hc := (h.clean (Option.not_isSome_iff_eq_none.mp hno)).1
    simp [hn] at hc
  intro he
  refine h.woven.next_ne (n := n) (m := m) hn ?_
  exact (h.distinct (h.isSome_of_prev hp) hi he <| congrArg Prod.snd <| h.key hn).symm

-- A node of an operation with two nodes, or one without predecessor, is not stuck, and neither is the
-- other node of its operation.
theorem not_stuck (h : s.Threaded Y) (hn : (s.regs n).operation.isSome)
    (hs : ¬s.Stuck n) (he : m.op = n.op) : ¬s.Stuck m := by
  intro hm
  have hmi := Context.mem_nodesOf.mp <| h.mem_nodesOf <| h.isSome_of_prev hm
  have hni := Context.mem_nodesOf.mp <| h.mem_nodesOf hn
  have hl := h.lone hm
  rw [he] at hl hmi
  obtain ⟨o, i⟩ := n
  obtain ⟨o', j⟩ := m
  obtain rfl : o' = o := he
  obtain rfl : i = j := by simp only at hmi hni hl; omega
  exact hs hm

-- Taking a node out of its queue, whether or not it is reset.
theorem unlink (h : s.Threaded Y) (hs : ¬s.Stuck n) (hu : s.Unlinks n s')
    (hr : (s'.regs n).operation = none ∨ (s'.regs n).operation = (s.regs n).operation ∧
      (s'.regs n).key = (s.regs n).key ∧ (s'.regs n).task = (s.regs n).task) :
    s'.Threaded Y := by
  have hl : ∀ m, (s'.regs m).waitNext = (s.links.unlink n).next m ∧
      (s'.regs m).waitPrev = (s.links.unlink n).prev m := fun m => hu.links ▸ ⟨rfl, rfl⟩
  have hsome : ∀ {m}, (s'.regs m).operation.isSome →
      (s'.regs m).operation = (s.regs m).operation ∧
      (s'.regs m).key = (s.regs m).key ∧ (s'.regs m).task = (s.regs m).task := by
    intro m hm
    by_cases he : m = n
    case pos =>
      subst he
      exact hr.resolve_left fun hn => by simp [hn] at hm
    case neg =>
      have hb := hu.body he
      exact ⟨Registration.operation_eq hb, Registration.key_eq hb, Registration.task_eq hb⟩
  have hsome' : ∀ {m}, (s'.regs m).operation.isSome → (s.regs m).operation.isSome :=
    fun hm => (hsome hm).1 ▸ hm
  have harmed : ∀ {m}, (s'.regs m).armed → m ≠ n ∧ (s.regs m).armed := by
    intro m hm
    have he : m ≠ n := fun he => by simp [he, hu.unarmed] at hm
    exact ⟨he, Registration.armed_eq (hu.body he) ▸ hm⟩
  have hnodes : ∀ {m : Node}, m ∈ s'.nodesOf m.op ↔ m ∈ s.nodesOf m.op :=
    mem_nodesOf_congr <| by rw [hu.ops]
  refine ⟨hu.links ▸ h.woven.unlink hs, fun {a b} hab => ?_, fun {m} hm => ?_, fun {m op} hm => ?_,
    fun {a b} ha hb hab hf => ?_, fun {m} hm => ?_, fun {m} hm => ?_, fun {m} hm ht => ?_,
    fun {k op} hk => ?_, hu.inflight ▸ h.nodup, fun h₁ h₂ => ?_⟩
  · rw [(hl a).1] at hab
    have hb : b ≠ n := fun he => by
      have hp := (h.woven.unlink hs).next hab
      simp [he, Links.unlink_prev] at hp
    rw [Links.unlink_next] at hab
    split at hab
    case isTrue     => simp at hab
    case isFalse ha =>
      rw [Registration.key_eq (hu.body ha), Registration.key_eq (hu.body hb)]
      split at hab
      case isTrue hp  => exact (h.key hab).trans (h.key (h.woven.next_of_prev hs hp))
      case isFalse hp => exact h.key hab
  · by_cases he : m = n
    case pos =>
      rw [(hl m).1, (hl m).2]
      simpa [Links.unlink_next, Links.unlink_prev, he] using hu.unarmed
    case neg =>
      have hb := hu.body he
      have ⟨h₁, h₂, h₃⟩ := h.clean <| (Registration.operation_eq hb).symm.trans hm
      have ⟨h₄, h₅⟩ := h.woven.unlink_isolated hs h₁ h₂
      exact ⟨(hl m).1.trans h₄, (hl m).2.trans h₅, (Registration.armed_eq hb).trans h₃⟩
  · have hi : (s'.regs m).operation.isSome := by simp [hm]
    rw [hnodes]
    exact h.owner <| (hsome hi).1.symm.trans hm
  · exact h.distinct (hsome' ha) (hsome' hb) hab <| by
      have h₁ := congrArg Prod.snd (hsome ha).2.1
      have h₂ := congrArg Prod.snd (hsome hb).2.1
      exact h₁.symm.trans (hf.trans h₂)
  · exact (hl m).2.trans <| h.woven.unlink_head <| h.head (harmed hm).2
  · rw [hu.ops]
    by_contra hc
    exact h.woven.prev_ne_of_unlink hs (fun hp => hc (h.lone hp)) ((hl m).2.symm.trans hm)
  · rw [hu.ops]
    exact h.single (hsome' hm) ((hsome hm).2.2 ▸ ht)
  · rw [hu.filters] at hk
    have hf : s.filters k = some op ∧ ((s.regs n).armed → (s.regs n).key ≠ k) := by
      split at hk
      case isTrue ha =>
        have hne : (s.regs n).key ≠ k := fun he => by
          rw [← he, Function.update_self] at hk
          cases hk
        rw [Function.update_of_ne hne.symm] at hk
        exact ⟨hk, fun _ => hne⟩
      case isFalse ha => exact ⟨hk, fun h => absurd h ha⟩
    have ⟨m, ho, ha, hm⟩ := h.kernel hf.1
    have he : m ≠ n := fun he => hf.2 (he ▸ ha) (he ▸ hm)
    have hb := hu.body he
    exact ⟨m, ho, (Registration.armed_eq hb).trans ha, (Registration.key_eq hb).trans hm⟩
  · exact hu.ops ▸ h.idle (hu.inflight ▸ h₁) h₂

theorem congr (h : s.Threaded Y) (hr : s'.regs = s.regs) (hf : s'.filters = s.filters)
    (ho : ∀ op, (s'.ops op).registrationCount = (s.ops op).registrationCount)
    (hi : s'.inflight = s.inflight) : s'.Threaded Y where
  woven        := by simpa only [links, hr] using h.woven
  key          := by rw [hr]; exact h.key
  clean        := by rw [hr]; exact h.clean
  owner hn     := by
    obtain ⟨h₁, h₂⟩ := h.owner (hr ▸ hn)
    exact ⟨h₁, mem_nodesOf_congr (ho _) |>.mpr h₂⟩
  distinct     := by rw [hr]; exact h.distinct
  head         := by rw [hr]; exact h.head
  lone hn      := ho _ ▸ h.lone (by simpa only [Stuck, hr] using hn)
  single hn ht := ho _ ▸ h.single (hr ▸ hn) (hr ▸ ht)
  kernel       := by rw [hr, hf]; exact h.kernel
  nodup        := hi ▸ h.nodup
  idle h₁ h₂   := ho _ ▸ h.idle (hi ▸ h₁) h₂

-- An operation without registered nodes leaves the context.
theorem retire (op : OpId) (h : s.Threaded Y) (hn : ∀ n : Node, n.op = op → (s.regs n).operation = none)
    (hr : s'.regs = s.regs) (hf : s'.filters = s.filters)
    (ho : ∀ o, (s'.ops o).registrationCount = if o = op then 0 else (s.ops o).registrationCount)
    (hi : s'.inflight = s.inflight.erase op) (hy : ∀ {o}, o ∈ Y → o = op ∨ o ∈ X) :
    s'.Threaded X where
  woven        := by simpa only [links, hr] using h.woven
  key          := by rw [hr]; exact h.key
  clean        := by rw [hr]; exact h.clean
  owner {m o} hm := by
    rw [hr] at hm
    obtain ⟨h₁, h₂⟩ := h.owner hm
    have hne : m.op ≠ op := fun he => by simp [hn m he] at hm
    exact ⟨h₁, mem_nodesOf_congr (by rw [ho, if_neg hne]) |>.mpr h₂⟩
  distinct     := by rw [hr]; exact h.distinct
  head         := by rw [hr]; exact h.head
  lone {m} hm  := by
    rw [ho]
    split
    case isTrue  => exact Nat.zero_le _
    case isFalse => exact h.lone (by simpa only [Stuck, hr] using hm)
  single {m} hm ht := by
    rw [hr] at hm ht
    rw [ho]
    split
    case isTrue  => exact Nat.zero_le _
    case isFalse => exact h.single hm ht
  kernel       := by rw [hr, hf]; exact h.kernel
  nodup        := hi ▸ h.nodup.erase op
  idle {o} h₁ h₂ := by
    rw [ho]
    split
    case isTrue     => rfl
    case isFalse he =>
      refine h.idle (fun hm => h₁ ?_) fun hy' => (hy hy').elim he h₂
      exact hi ▸ (List.mem_erase_of_ne he).mpr hm

end Threaded

section Fail

variable {i : Nat} {result : Int}

@[simp]
theorem unlinkNode_localCpu : (s.unlinkNode n).1.localCpu = s.localCpu := by
  unfold unlinkNode
  cases (s.regs n).waitPrev <;> cases (s.regs n).waitNext <;> rfl

@[simp]
theorem releaseNode_localCpu : (s.releaseNode n).1.localCpu = s.localCpu := by
  simp only [releaseNode, setReg, unlinkNode_localCpu]
  split <;> rfl

theorem releaseNode_operation : ((s.releaseNode n).1.regs n).operation = none := by
  simp [releaseNode]

-- `s'` is `s` without the registration `n`.
structure Releases (s : Context) (n : Node) (Y : List OpId) (s' : Context) : Prop where
  threaded : s'.Threaded Y
  sheds : s.Sheds s' [n.op] []
  links : s'.links = s.links.unlink n
  operation : (s'.regs n).operation = none

theorem Threaded.sheds_of_unlinks (h : s.Threaded Y) (hs : ¬s.Stuck n) (hu : s.Unlinks n s')
    (hl : s'.localCpu = s.localCpu)
    (hn : (s.regs n).operation = none → (s'.regs n).operation = none) :
    s.Sheds s' [n.op] [] := by
  refine ⟨⟨by simp [hu.inflight], by simp [hl], by simp, fun {m} _ hm => ?_⟩,
    fun _ _ => by rw [hu.ops], fun {m} hm => ?_, fun {m} hm => ?_, fun {m} hm => ?_⟩
  · have hne : m ≠ n := fun he => hm (by simp [he])
    exact .of_body (hu.body hne)
  · by_cases he : m = n
    case pos => exact he ▸ hn (he ▸ hm)
    case neg => exact (Registration.operation_eq (hu.body he)).trans hm
  · by_contra hno
    refine h.woven.prev_ne_of_unlink hs hno ?_
    rw [← hu.links]
    exact hm
  · have ha := h.woven.unlink_isolated hs hm.1 hm.2
    rwa [← hu.links] at ha

theorem Threaded.release (h : s.Threaded Y) (hs : ¬s.Stuck n) :
    s.Releases n Y (s.releaseNode n).1 where
  threaded  := h.unlink hs releaseNode_unlinks (.inl releaseNode_operation)
  sheds     := h.sheds_of_unlinks hs releaseNode_unlinks releaseNode_localCpu fun _ =>
    releaseNode_operation
  links     := releaseNode_links
  operation := releaseNode_operation

theorem Threaded.operation_eq_none (h : s.Threaded Y)
    (hr : ¬(i < (s.ops op).registrationCount ∧ (s.regs ⟨op, i⟩).operation.isSome)) :
    (s.regs ⟨op, i⟩).operation = none := by
  by_contra hn
  have hi := Option.isSome_iff_ne_none.mpr hn
  exact hr ⟨(Context.mem_nodesOf.mp <| h.mem_nodesOf hi).2.2, hi⟩

-- A node that is not registered is released as it is.
theorem Threaded.releases_self (h : s.Threaded Y) (hn : (s.regs n).operation = none) :
    s.Releases n Y s := by
  have ⟨h₁, h₂, _⟩ := h.clean hn
  exact ⟨h, .refl, (Links.unlink_eq_of_isolated (L := s.links) h₁ h₂).symm, hn⟩

theorem Threaded.detach (h : s.Threaded Y) (hs : ¬s.Stuck ⟨op, i⟩) :
    s.Releases ⟨op, i⟩ Y (s.detachNode op i) := by
  simp only [detachNode]
  split
  case isTrue     => exact h.release hs
  case isFalse hr => exact h.releases_self (h.operation_eq_none hr)

-- `m` is the first node of its queue, or the second behind `c`.
def Leads (s : Context) (c m : Node) : Prop :=
  (s.regs m).waitPrev = none ∨ (s.regs m).waitPrev = some c ∧ (s.regs c).waitPrev = none

theorem Releases.leads (h : s.Releases n Y s') (hw : s.Threaded Y) (hl : s.Leads c m)
    (hne : m ≠ n) : s'.Leads c m := by
  have hp : ∀ x, (s'.regs x).waitPrev = (s.links.unlink n).prev x := fun x => h.links ▸ rfl
  rw [Leads, hp, hp]
  obtain hl | ⟨hl, hc⟩ := hl
  · exact .inl <| hw.woven.unlink_head hl
  · exact hw.woven.unlink_second hl hc hne

-- An operation has two nodes at most.
theorem Threaded.forall_none (h : s.Threaded Y) (h₀ : (s.regs ⟨op, 0⟩).operation = none)
    (h₁ : (s.regs ⟨op, 1⟩).operation = none) (he : n.op = op) : (s.regs n).operation = none := by
  by_contra hn
  have hi := (Context.mem_nodesOf.mp <| h.mem_nodesOf <| Option.isSome_iff_ne_none.mpr hn).2.1
  obtain ⟨o, i⟩ := n
  obtain rfl : o = op := he
  have h2 : i = 0 ∨ i = 1 := by simp only at hi; omega
  rcases h2 with rfl | rfl
  · exact hn h₀
  · exact hn h₁

theorem failOperation_localCpu :
    (s.failOperation op result).localCpu = op :: s.localCpu := by
  have hd : ∀ {s : Context} {i}, (s.detachNode op i).localCpu = s.localCpu := by
    intro s i
    simp only [detachNode]
    split <;> simp
  simp [failOperation, removeInflight, completeSubmitError, setOp, pushCpu, hd]

-- `s'` is `s` after `op` has failed.
structure Failed (s : Context) (op : OpId) (Y : List OpId) (s' : Context) : Prop where
  threaded : s'.Threaded Y
  sheds : s.Sheds s' [] [op]
  leads : ∀ {c m}, s.Leads c m → m.op ≠ op → s'.Leads c m
  operation : ∀ n : Node, n.op = op → (s'.regs n).operation = none

theorem Threaded.fail (h : s.Threaded Y) (hi : op ∈ s.inflight)
    (hs : ∀ n : Node, n.op = op → ¬s.Stuck n) (result : Int) :
    s.Failed op Y (s.failOperation op result) := by
  have h₀ := h.detach (hs ⟨op, 0⟩ rfl)
  have h₁ := h₀.threaded.detach (i := 1) fun hn => hs ⟨op, 1⟩ rfl (h₀.sheds.stuck hn)
  have hsh := h₀.sheds.trans h₁.sheds
  have hnone : ∀ n : Node, n.op = op → (((s.detachNode op 0).detachNode op 1).regs n).operation = none :=
    fun n => h₁.threaded.forall_none (h₁.sheds.clean h₀.operation) h₁.operation
  have hcount : ∀ o, ((s.failOperation op result).ops o).registrationCount =
      if o = op then 0 else (((s.detachNode op 0).detachNode op 1).ops o).registrationCount := by
    intro o
    by_cases ho : o = op
    all_goals simp [failOperation, removeInflight, completeSubmitError, setOp, ho]
  have hinf : (s.failOperation op result).inflight =
      ((s.detachNode op 0).detachNode op 1).inflight.erase op := by
    rw [failOperation_inflight, detachNode_inflight, detachNode_inflight]
  refine ⟨h₁.threaded.retire _ hnone rfl rfl hcount hinf fun hy => .inr hy, ?_, fun hl hne => ?_,
    hnone⟩
  · refine ⟨⟨?_, ?_, by simp, fun {n} hn _ => ?_⟩, fun {o} ho _ => ?_, hsh.clean, hsh.stuck,
      hsh.alone⟩
    · rw [failOperation_inflight]
      exact List.perm_cons_erase hi
    · rw [failOperation_localCpu]
      exact .refl _
    · exact .of_body <| failOperation_body <| by simpa using hn
    · rw [failOperation_ops (by simpa using ho)]
  · exact h₁.leads h₀.threaded (h₀.leads h hl fun he => hne (he ▸ rfl)) fun he => hne (he ▸ rfl)

end Fail

section Arm

theorem Threaded.arm (h : s.Threaded Y) (hn : (s.regs n).operation.isSome)
    (hp : (s.regs n).waitPrev = none) :
    ((s.setFilter (s.regs n).key (s.regs n).operation).setArmed n true).Threaded Y ∧
      s.Sheds ((s.setFilter (s.regs n).key (s.regs n).operation).setArmed n true) [] [] := by
  generalize hs : (s.setFilter (s.regs n).key (s.regs n).operation).setArmed n true = s'
  have hl : s'.links = s.links := by rw [← hs]; exact setArmed_links
  have hnext : ∀ m, (s'.regs m).waitNext = (s.regs m).waitNext := fun m =>
    congrFun (congrArg Links.next hl) m
  have hprev : ∀ m, (s'.regs m).waitPrev = (s.regs m).waitPrev := fun m =>
    congrFun (congrArg Links.prev hl) m
  have hreg : ∀ m, s'.regs m = if m = n then { s.regs n with armed := true } else s.regs m := by
    simp [← hs, setArmed]
  have hst : ∀ m, (s.regs m).Stays (s'.regs m) := fun m => by
    rw [hreg]
    by_cases hm : m = n
    case pos => simpa [hm] using ⟨rfl, rfl, rfl, fun _ => rfl⟩
    case neg => simpa [hm] using .refl
  have hops : s'.ops = s.ops := by rw [← hs]; rfl
  have hinf : s'.inflight = s.inflight := by rw [← hs]; rfl
  have hcpu : s'.localCpu = s.localCpu := by rw [← hs]; rfl
  refine ⟨⟨hl ▸ h.woven, fun {a b} hab => ?_, fun {m} hm => ?_, fun {m op} hm => ?_,
    fun {a b} ha hb hab hf => ?_, fun {m} hm => ?_, fun {m} hm => ?_, fun {m} hm ht => ?_,
    fun {k op} hk => ?_, hinf ▸ h.nodup, fun h₁ h₂ => hops ▸ h.idle (hinf ▸ h₁) h₂⟩, ?_⟩
  · rw [(hst a).key, (hst b).key]
    exact h.key (hnext a ▸ hab)
  · have hm' := (hst m).operation.symm.trans hm
    have hne : m ≠ n := fun he => by simp [he ▸ hm'] at hn
    rw [hreg, if_neg hne]
    exact h.clean hm'
  · obtain ⟨h₁, h₂⟩ := h.owner ((hst m).operation.symm.trans hm)
    exact ⟨h₁, mem_nodesOf_congr (by rw [hops]) |>.mpr h₂⟩
  · have h₁ := congrArg Prod.snd (hst a).key
    have h₂ := congrArg Prod.snd (hst b).key
    exact h.distinct ((hst a).operation ▸ ha) ((hst b).operation ▸ hb) hab
      (h₁.symm.trans (hf.trans h₂))
  · rw [hprev]
    by_cases he : m = n
    case pos => exact he ▸ hp
    case neg => exact h.head (by simpa [hreg, he] using hm)
  · exact hops ▸ h.lone ((hprev m).symm.trans hm)
  · exact hops ▸ h.single ((hst m).operation ▸ hm) ((hst m).task ▸ ht)
  · rw [← hs] at hk
    simp only [setArmed_filters, setFilter_filters] at hk
    split at hk
    case isTrue he =>
      rw [h.operation_eq hn] at hk
      exact ⟨n, Option.some.inj hk, by simp [hreg], (hst n).key.trans he.symm⟩
    case isFalse =>
      obtain ⟨m, h₁, h₂, h₃⟩ := h.kernel hk
      exact ⟨m, h₁, (hst m).armed h₂, (hst m).key.trans h₃⟩
  · refine ⟨⟨by simp [hinf], by simp [hcpu], by simp, fun _ _ => hst _⟩, fun _ _ => by rw [hops],
      fun hm => (hst _).operation.trans hm, fun {m} hm => (hprev m).symm.trans hm,
      fun {m} hm => ⟨(hnext m).trans hm.1, (hprev m).trans hm.2⟩⟩

-- A node `arm_queue_head` may be called for while the operations of `P` are left alone.
structure Candidate (s : Context) (k : Key) (P : List OpId) (c : Node) : Prop where
  operation : (s.regs c).operation.isSome
  prev : (s.regs c).waitPrev = none
  key : (s.regs c).key = k
  other : c.op ∉ P

-- Failing the operation of a candidate makes its successor a candidate.
theorem Candidate.next {P : List OpId} (hc : s.Candidate k P c) (h : s.Threaded Y)
    (hP : ∀ x : Node, x.op ∈ P → (s.regs x).key = k → s.Alone x) (hf : s.Failed c.op Y s')
    (hn : (s.regs c).waitNext = some m) : s'.Candidate k P m := by
  have hp : (s.regs m).waitPrev = some c := h.woven.next hn
  have hne := h.next_op_ne hn
  have hst := hf.sheds.stays (n := m) (by simpa using hne) (by simp)
  refine ⟨?_, ?_, hst.key.trans ((h.key hn).trans hc.key), fun hm => ?_⟩
  · rw [hst.operation]
    exact h.isSome_of_prev hp
  · refine (hf.leads (.inr ⟨hp, hc.prev⟩) hne).resolve_right fun ⟨hp', _⟩ => ?_
    -- the failed operation has no registered node left that `m` could follow
    have hcn : s'.links.next c = none := (hf.threaded.clean (hf.operation c rfl)).1
    exact (hf.threaded.woven.prev hp').elim (fun he => hne (he ▸ rfl)) fun hx => by simp [hcn] at hx
  · simp [(hP m hm ((h.key hn).trans hc.key)).2] at hp

-- By induction on the rounds: each arms its candidate or fails the operation of the candidate.
theorem Threaded.armQueueHead (env : Env) (fuel : Nat) {P : List OpId} {o : Option Node}
    (h : s.Threaded Y) (hy : Y ⊆ P) (ho : ∀ c, o = some c → s.Candidate k P c)
    (hP : ∀ x : Node, x.op ∈ P → (s.regs x).key = k → s.Alone x) :
    ∃ F, s.Sheds (armQueueHead env fuel s o) [] F ∧ (∀ op ∈ F, op ∉ P) ∧
      (Context.armQueueHead env fuel s o).Threaded Y ∧ ∀ x : Node, x.op ∈ P →
      ((Context.armQueueHead env fuel s o).regs x).armed = (s.regs x).armed := by
  induction fuel generalizing s o
  case zero         => exact ⟨[], .refl, by simp, h, fun _ _ => rfl⟩
  case succ fuel hi =>
    obtain _ | c := o
    case none => exact ⟨[], .refl, by simp, h, fun _ _ => rfl⟩
    case some =>
      have hc := ho c rfl
      by_cases hfc : env.fails c
      case neg =>
        have hfc : env.fails c = false := by simpa using hfc
        obtain ⟨ht, hs⟩ := h.arm hc.operation hc.prev
        have hstep : Context.armQueueHead env (fuel + 1) s (some c) =
            (s.setFilter (s.regs c).key (s.regs c).operation).setArmed c true := by
          simp [Context.armQueueHead, armRegistration_of_not_fails hfc]
        rw [hstep]
        refine ⟨[], hs, by simp, ht, fun x hx => ?_⟩
        have hxc : x ≠ c := fun he => hc.other (he ▸ hx)
        simp [setArmed, hxc]
      case pos =>
        have hneg : (env.evAdd c).status < 0 := by simpa [Env.fails] using hfc
        have hin := (h.active hc.operation).resolve_right fun hm => hc.other (hy hm)
        have hns : ¬s.Stuck c := fun hs => by simp [Stuck, hc.prev] at hs
        have hf := h.fail hin (fun n hn => h.not_stuck hc.operation hns hn) (env.evAdd c).status
        have hne : ∀ {o}, o ∈ P → o ∉ [c.op] := fun ho he =>
          hc.other <| List.mem_singleton.mp he ▸ ho
        obtain ⟨F, hsh, hF, ht, ha⟩ := hi hf.threaded (fun m hm => hc.next h hP hf hm) fun x hx hk => by
          have hst := hf.sheds.stays (hne hx) (by simp)
          exact hf.sheds.alone <| hP x hx (hst.key ▸ hk)
        have hstep : Context.armQueueHead env (fuel + 1) s (some c) = Context.armQueueHead env fuel
            (s.failOperation c.op (env.evAdd c).status) (s.regs c).waitNext := by
          simp [Context.armQueueHead, armRegistration_of_fails hfc, Int.not_le.mpr hneg]
        rw [hstep]
        refine ⟨c.op :: F, hf.sheds.trans hsh, List.forall_mem_cons.mpr ⟨hc.other, hF⟩, ht, ?_⟩
        intro x hx
        rw [ha x hx]
        exact Registration.armed_eq <| failOperation_body <| by simpa using hne hx

-- An armed node has left its queue, and its successor takes over.
theorem Threaded.armSuccessor (env : Env) (h : s.Threaded Y) (ha : (s.regs n).armed)
    (hu : s.Unlinks n s') (h' : s'.Threaded Y) (hy : Y ⊆ [n.op]) :
    let s'' := Context.armQueueHead env s'.inflight.length s' (s.regs n).waitNext
    ∃ F, s'.Sheds s'' [] F ∧ n.op ∉ F ∧ s''.Threaded Y ∧ (s''.regs n).armed = false := by
  intro s''
  have hprev : ∀ m, (s'.regs m).waitPrev = (s.links.unlink n).prev m := fun m => hu.links ▸ rfl
  have hnext : ∀ m, (s'.regs m).waitNext = (s.links.unlink n).next m := fun m => hu.links ▸ rfl
  have hc : ∀ c, (s.regs n).waitNext = some c → s'.Candidate (s.regs n).key [n.op] c := by
    intro c hn
    have hne := h.next_op_ne hn
    have hcn : c ≠ n := fun he => hne (he ▸ rfl)
    have hb := hu.body hcn
    refine ⟨?_, ?_, (Registration.key_eq hb).trans (h.key hn), by simpa using hne⟩
    · rw [Registration.operation_eq hb]
      exact h.isSome_of_prev (h.woven.next hn)
    · rw [hprev, Links.unlink_prev, if_neg hcn, if_pos (show s.links.next n = some c from hn)]
      exact h.head ha
  have hP : ∀ x : Node, x.op ∈ [n.op] → (s'.regs x).key = (s.regs n).key → s'.Alone x := by
    intro x hx hk
    by_cases hxn : x = n
    case pos =>
      rw [Alone, hnext, hprev]
      simp [hxn, Links.unlink_next, Links.unlink_prev]
    case neg =>
      have hb := hu.body hxn
      have hnone : (s'.regs x).operation = none := by
        by_contra hno
        refine hxn <| h.distinct ?_ (h.isSome_of_armed ha) (by simpa using hx) ?_
        · exact Registration.operation_eq hb ▸ Option.isSome_iff_ne_none.mpr hno
        · exact congrArg Prod.snd <| (Registration.key_eq hb).symm.trans hk
      have ⟨h₁, h₂, _⟩ := h'.clean hnone
      exact ⟨h₁, h₂⟩
  have ⟨F, hs, hF, ht, hx⟩ := h'.armQueueHead env s'.inflight.length hy hc hP
  exact ⟨F, hs, fun hn => hF _ hn (by simp), ht, (hx n (by simp)).trans hu.unarmed⟩

end Arm

section Unregister

variable {i : Nat}

theorem Threaded.unregisterNode (env : Env) (h : s.Threaded Y) (hy : Y ⊆ [op])
    (hs : ¬s.Stuck ⟨op, i⟩) :
    ∃ F, s.Sheds (s.unregisterNode env op i) [op] F ∧ (s.unregisterNode env op i).Threaded Y ∧
      ((s.unregisterNode env op i).regs ⟨op, i⟩).operation = none := by
  simp only [Context.unregisterNode]
  split
  case isFalse hr => exact ⟨[], .refl, h, h.operation_eq_none hr⟩
  case isTrue hr  =>
    have hrel := h.release hs
    split
    case isFalse hw => exact ⟨[], hrel.sheds, hrel.threaded, hrel.operation⟩
    case isTrue hw  =>
      obtain ⟨F, hsh, hF, ht, _⟩ := h.armSuccessor env hw releaseNode_unlinks hrel.threaded hy
      rw [← releaseNode_snd] at hsh ht
      refine ⟨F, ?_, ht, hsh.clean hrel.operation⟩
      refine hrel.sheds.trans <| hsh.widen (by simp) fun ho he => hF ?_
      exact List.mem_singleton.mp he ▸ ho

theorem Threaded.unregister (env : Env) (op : OpId) (h : s.Threaded Y) (hy : Y ⊆ [op])
    (hs : ∀ n : Node, n.op = op → ¬s.Stuck n) :
    ∃ F, s.Sheds (s.unregisterOperation env op) [op] F ∧
      ((s.unregisterOperation env op).removeInflight op).Threaded [] := by
  have ⟨F, hsh, h₁, hn⟩ := h.unregisterNode env hy (hs ⟨op, 0⟩ rfl)
  have ⟨G, hsh', h₂, hn'⟩ := h₁.unregisterNode env (i := 1) hy
    fun hst => hs ⟨op, 1⟩ rfl (hsh.stuck hst)
  have hall := hsh.trans hsh'
  refine ⟨F ++ G, ?_, ?_⟩
  · refine ⟨⟨hall.inflight, hall.localCpu, hall.spared, hall.stays⟩, fun {o} ho hx => ?_, hall.clean,
      hall.stuck, hall.alone⟩
    have hne : o ≠ op := by simpa using hx
    simpa [unregisterOperation, hne] using hall.count ho hx
  · refine h₂.retire op (fun n => h₂.forall_none (hsh'.clean hn) hn') rfl rfl (fun o => ?_) rfl
      fun ho => .inl <| List.mem_singleton.mp (hy ho)
    by_cases ho : o = op
    all_goals simp [unregisterOperation, removeInflight, ho]

end Unregister

end Context
end Bnio.Kqueue
