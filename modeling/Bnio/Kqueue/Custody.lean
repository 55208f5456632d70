import Bnio.Kqueue.Threads

namespace Bnio.Kqueue
namespace Context

variable {env : Env} {s s' s'' : Context} {n m t : Node} {op : OpId} {k : Key} {e : Event}
variable {X Y F G : List OpId}

section Append

-- `s'` is `s` after `n` has been linked in a queue, possibly behind itself.
structure Joins (s : Context) (n : Node) (Y : List OpId) (s' : Context) : Prop where
  threaded : s'.Threaded Y
  ops : s'.ops = s.ops
  inflight : s'.inflight = s.inflight
  localCpu : s'.localCpu = s.localCpu
  stays : ∀ {m}, m ≠ n → (s.regs m).Stays (s'.regs m)
  operation : (s'.regs n).operation = (s.regs n).operation
  key : (s'.regs n).key = (s.regs n).key
  stuck : ∀ {m}, s'.Stuck m → s.Stuck m ∨ m = n ∧ n.op ∈ s.inflight
  unarmed : ∀ {m}, m ≠ n → (s'.regs m).armed = (s.regs m).armed
  alone : ∀ {m}, m ≠ n → m.op ∉ s.inflight → s.Alone m → s'.Alone m

theorem findQueueTail_eq_some (h : s.findQueueTail k = some t) :
    t.op ∈ s.inflight ∧ (s.regs t).operation.isSome ∧ (s.regs t).key = k ∧
      (s.regs t).waitNext = none := by
  have hp := List.find?_some h
  have ⟨op, ho, ht⟩ := List.mem_flatMap.mp <| List.mem_of_find?_eq_some h
  obtain rfl := (mem_nodesOf.mp ht).1
  simp only [Bool.and_eq_true, decide_eq_true_eq] at hp
  exact ⟨ho, hp.1.1, hp.1.2, hp.2⟩

theorem Threaded.link (h : s.Threaded Y) (hn : (s.regs n).operation.isSome) (hl : s.Alone n)
    (ha : (s.regs n).armed = false)
    (hc : n.op ∈ s.inflight → (s.ops n.op).registrationCount ≤ 1)
    (ht : s.findQueueTail (s.regs n).key = some t) : s.Joins n Y (s.linkAfter t n) := by
  obtain ⟨hti, hto, htk, htn⟩ := findQueueTail_eq_some ht
  have hb := fun m => linkAfter_body (s := s) (t := t) (n := n) (m := m)
  have hst := fun m => Registration.Stays.of_body (hb m)
  have hnext : ∀ m, ((s.linkAfter t n).regs m).waitNext = (s.links.appendAfter t n).next m :=
    fun m => congrFun (congrArg Links.next linkAfter_links) m
  have hprev : ∀ m, ((s.linkAfter t n).regs m).waitPrev = (s.links.appendAfter t n).prev m :=
    fun m => congrFun (congrArg Links.prev linkAfter_links) m
  have hw : (s.linkAfter t n).links.Woven := by
    rw [linkAfter_links]
    exact h.woven.appendAfter htn hl.1 hl.2
  have hstuck : ∀ {m}, (s.linkAfter t n).Stuck m → s.Stuck m ∨ m = n ∧ n.op ∈ s.inflight := by
    intro m hm
    rw [Stuck, hprev, Links.appendAfter_prev] at hm
    split at hm
    case isTrue he =>
      obtain rfl := Option.some.inj hm
      exact .inr ⟨he, he ▸ hti⟩
    case isFalse   => exact .inl hm
  refine ⟨⟨hw, fun {a b} hab => ?_, fun {m} hm => ?_, fun {m op} hm => ?_,
    fun {a b} ha hb hab hf => ?_, fun {m} hm => ?_, fun {m} hm => ?_, fun {m} hm ht => ?_,
    fun {k op} hk => ?_, h.nodup, h.idle⟩, rfl, rfl, rfl, fun _ => hst _, (hst n).operation,
    (hst n).key, hstuck, fun _ => Registration.armed_eq (hb _), fun {m} hm hi hm' => ?_⟩
  · rw [(hst a).key, (hst b).key]
    rw [hnext, Links.appendAfter_next] at hab
    split at hab
    case isTrue  => simp at hab
    case isFalse =>
      split at hab
      case isTrue he => rw [← Option.some.inj hab, he, htk]
      case isFalse   => exact h.key hab
  · have hm' := (hst m).operation.symm.trans hm
    have hmn : m ≠ n := fun he => by simp [he ▸ hm'] at hn
    have hmt : m ≠ t := fun he => by simp [he ▸ hm'] at hto
    obtain ⟨h₁, h₂, h₃⟩ := h.clean hm'
    obtain ⟨h₄, h₅⟩ := Links.appendAfter_frame (L := s.links) hmt hmn
    exact ⟨(hnext m).trans (h₄.trans h₁), (hprev m).trans (h₅.trans h₂),
      (Registration.armed_eq (hb m)).trans h₃⟩
  · exact h.owner ((hst m).operation.symm.trans hm)
  · have h₁ := congrArg Prod.snd (hst a).key
    have h₂ := congrArg Prod.snd (hst b).key
    exact h.distinct ((hst a).operation ▸ ha) ((hst b).operation ▸ hb) hab
      (h₁.symm.trans (hf.trans h₂))
  · have hm' : (s.regs m).armed := Registration.armed_eq (hb m) ▸ hm
    have hmn : m ≠ n := fun he => by simp [he, ha] at hm'
    rw [hprev, Links.appendAfter_prev, if_neg hmn]
    exact h.head hm'
  · obtain hm | ⟨rfl, hi⟩ := hstuck hm
    · exact h.lone hm
    · exact hc hi
  · exact h.single ((hst m).operation ▸ hm) ((hst m).task ▸ ht)
  · obtain ⟨m, h₁, h₂, h₃⟩ := h.kernel hk
    exact ⟨m, h₁, (hst m).armed h₂, (hst m).key.trans h₃⟩
  · have hmt : m ≠ t := fun he => hi (he ▸ hti)
    obtain ⟨h₁, h₂⟩ := Links.appendAfter_frame (L := s.links) hmt hm
    exact ⟨(hnext m).trans (h₁.trans hm'.1), (hprev m).trans (h₂.trans hm'.2)⟩

theorem Threaded.append (env : Env) (h : s.Threaded Y) (hn : (s.regs n).operation.isSome)
    (hl : s.Alone n) (ha : (s.regs n).armed = false)
    (hc : n.op ∈ s.inflight → (s.ops n.op).registrationCount ≤ 1) :
    (∃ r < 0, s.appendNode env n = (s, r)) ∨
      ∃ s', s.Joins n Y s' ∧ s.appendNode env n = (s', 0) := by
  unfold appendNode
  cases ht : s.findQueueTail (s.regs n).key
  case none =>
    have hs : (s.setWaitPrev n none).setWaitNext n none = s := by
      rw [setWaitPrev_eq_self hl.2, setWaitNext_eq_self hl.1]
    simp only [hs]
    by_cases hf : env.fails n
    case pos =>
      rw [armRegistration_of_fails hf]
      exact .inl ⟨_, by simpa [Env.fails] using hf, rfl⟩
    case neg =>
      obtain ⟨ht, hsh⟩ := h.arm hn hl.2
      rw [armRegistration_of_not_fails (by simpa using hf)]
      refine .inr ⟨_, ⟨ht, rfl, rfl, rfl, fun _ => hsh.stays (by simp) (by simp), ?_, ?_,
        fun hm => .inl (hsh.stuck hm), fun hm => by simp [setArmed, hm], fun _ _ => hsh.alone⟩, rfl⟩
      all_goals simp [setArmed, Registration.key]
  case some t =>
    have hj := h.link hn hl ha hc ht
    have ha' : ((s.linkAfter t n).regs n).armed = false :=
      (Registration.armed_eq linkAfter_body).trans ha
    exact .inr ⟨_, hj, Prod.ext (setArmed_eq_self ha') rfl⟩

end Append

section Register

variable {h : Helper} {i j : Nat} {f : Int} {fs : List Int}

theorem fillRegistrations_task (op : OpId) (hf : i < fs.length) :
    ((fillRegistrations op h j fs s).regs ⟨op, j + i⟩).task = h.task := by
  induction fs generalizing i j s
  case nil           => simp at hf
  case cons f' fs hi =>
    rw [fillRegistrations]
    obtain _ | i := i
    case zero =>
      rw [fillRegistrations_regs_of_lt (.inr (by simp))]
      simp
    case succ =>
      have he : j + (i + 1) = j + 1 + i := by omega
      exact he ▸ hi (by simpa using hf)

theorem fillRegistrations_regs_of_ge (hm : j + fs.length ≤ m.index) :
    (fillRegistrations op h j fs s).regs m = s.regs m := by
  induction fs generalizing j s
  case nil          => rfl
  case cons f fs hi =>
    rw [List.length_cons] at hm
    have hne : m ≠ ⟨op, j⟩ := fun he => by simp only [he] at hm; omega
    rw [fillRegistrations, hi (by omega)]
    simp [hne]

-- Only a poll asks for two filters, and these differ.
theorem prepare_shape (r : Request) : r.prepare.filters.Nodup ∧ r.prepare.filters.length ≤ 2 ∧
    (1 < r.prepare.filters.length → r.prepare.task = .poll) := by
  cases r
  case poll fd pm =>
    simp only [Request.prepare, Helper.prepPollAdd, Helper.reset, Helper.appendFilter]
    by_cases hr : pm &&& readPollMask = 0 <;> by_cases hw : pm &&& writePollMask = 0 <;>
      simp [hr, hw, evfiltRead, evfiltWrite, einval]
  all_goals simp [Request.prepare, Helper.prepRead, Helper.prepWrite, Helper.prepNop, Helper.reset,
    Helper.appendFilter]

theorem Threaded.idle_none (h : s.Threaded Y) (hi : op ∉ s.inflight) (hy : op ∉ Y) (hn : n.op = op) :
    (s.regs n).operation = none := by
  by_contra hno
  exact (h.active (Option.isSome_iff_ne_none.mpr hno)).elim (fun h => hi (hn ▸ h)) fun h => hy (hn ▸ h)

theorem withRegistrations_regs (hm : m.op ≠ op ∨ h.filters.length ≤ m.index) :
    (s.withRegistrations op h).regs m = s.regs m := by
  simp only [withRegistrations, setOp_regs]
  obtain hm | hm := hm
  · exact fillRegistrations_regs_of_lt (.inl hm)
  · exact fillRegistrations_regs_of_ge (by simpa using hm)

theorem withRegistrations_task (hi : i < h.filters.length) :
    ((s.withRegistrations op h).regs ⟨op, i⟩).task = h.task := by
  have ht := fillRegistrations_task op (s := s.setOp op { s.ops op with registrationCount := 0 })
    (h := h) (j := 0) hi
  rwa [Nat.zero_add] at ht

theorem Threaded.prepared (hs : s.Threaded []) (hop : op ∉ s.inflight) (hd : h.filters.Nodup)
    (h2 : h.filters.length ≤ 2) (ht : 1 < h.filters.length → h.task = .poll) :
    (s.withRegistrations op h).Threaded [op] := by
  generalize he : s.withRegistrations op h = s'
  have hkeep : ∀ {m}, m.op ≠ op ∨ h.filters.length ≤ m.index → s'.regs m = s.regs m :=
    fun hm => he ▸ withRegistrations_regs hm
  have hnew : ∀ {m : Node}, m.op = op → (hi : m.index < h.filters.length) →
      s'.Prepared m (h.descriptor, h.filters[m.index]) ∧ (s'.regs m).task = h.task := by
    rintro ⟨o, i⟩ rfl hi
    exact he ▸ ⟨withRegistrations_prepared (List.getElem?_eq_getElem hi), withRegistrations_task hi⟩
  have hidle : ∀ {m : Node}, m.op = op → (s.regs m).operation = none :=
    hs.idle_none hop (by simp)
  have hcount : ∀ o, (s'.ops o).registrationCount =
      if o = op then h.filters.length else (s.ops o).registrationCount := by
    intro o
    rw [← he]
    by_cases ho : o = op <;> simp [withRegistrations, ho]
  have hinf : s'.inflight = s.inflight := by rw [← he]; simp [withRegistrations]
  have hfil : s'.filters = s.filters := by rw [← he]; simp [withRegistrations]
  -- a node of the operation that is filled in had no links and gets none
  have hold : ∀ m, s'.regs m = s.regs m ∨ m.op = op ∧ m.index < h.filters.length := by
    intro m
    by_cases hm : m.op ≠ op ∨ h.filters.length ≤ m.index
    case pos => exact .inl (hkeep hm)
    case neg =>
      obtain ⟨h₁, h₂⟩ := not_or.mp hm
      exact .inr ⟨not_not.mp h₁, Nat.lt_of_not_le h₂⟩
  have hlinks : s'.links = s.links := by
    refine Links.mk.injEq .. |>.mpr ⟨funext fun m => ?_, funext fun m => ?_⟩
    all_goals
      obtain hm | ⟨hm, hi⟩ := hold m
      · simp only [hm]
      · have hp := (hnew hm hi).1
        have hc := hs.clean (hidle hm)
        simp only [hp.next, hp.prev, hc.1, hc.2.1]
  have hnext : ∀ m, (s'.regs m).waitNext = (s.regs m).waitNext := fun m =>
    congrFun (congrArg Links.next hlinks) m
  have hprev : ∀ m, (s'.regs m).waitPrev = (s.regs m).waitPrev := fun m =>
    congrFun (congrArg Links.prev hlinks) m
  have hsame : ∀ {m}, (s.regs m).operation.isSome → m.op ≠ op := fun hm ho => by
    simp [hidle ho] at hm
  have hcases : ∀ {m}, (s'.regs m).operation.isSome →
      s'.regs m = s.regs m ∧ m.op ≠ op ∨ m.op = op ∧ m.index < h.filters.length := by
    intro m hm
    refine (hold m).imp_left fun hr => ⟨hr, hsame (hr ▸ hm)⟩
  refine ⟨hlinks ▸ hs.woven, fun {a b} hab => ?_, fun {m} hm => ?_, fun {m o} hm => ?_,
    fun {a b} ha hb hab hf => ?_, fun {m} hm => ?_, fun {m} hm => ?_, fun {m} hm hp => ?_,
    fun {k o} hk => ?_, hinf ▸ hs.nodup, fun {o} h₁ h₂ => ?_⟩
  · rw [hnext] at hab
    have ha : a.op ≠ op := fun ho => by simp [(hs.clean (hidle ho)).1] at hab
    have hb : b.op ≠ op := hsame <| hs.isSome_of_prev (hs.woven.next hab)
    rw [hkeep (.inl ha), hkeep (.inl hb)]
    exact hs.key hab
  · obtain hr | ⟨ho, hi⟩ := hold m
    · exact hr ▸ hs.clean (hr ▸ hm)
    · simp [(hnew ho hi).1.operation] at hm
  · obtain ⟨hr, hne⟩ | ⟨ho, hi⟩ := hcases (m := m) (by simp [hm])
    · obtain ⟨h₁, h₃⟩ := hs.owner (hr ▸ hm)
      exact ⟨h₁, mem_nodesOf_congr (by rw [hcount, if_neg hne]) |>.mpr h₃⟩
    · have hop' := (hnew ho hi).1.operation
      refine ⟨Option.some.inj (hop'.symm.trans hm), Context.mem_nodesOf.mpr ⟨rfl, by omega, ?_⟩⟩
      rw [hcount, if_pos ho]
      exact hi
  · obtain ⟨hra, hna⟩ | ⟨hoa, hia⟩ := hcases ha <;> obtain ⟨hrb, hnb⟩ | ⟨hob, hib⟩ := hcases hb
    · exact hs.distinct (hra ▸ ha) (hrb ▸ hb) hab (by rwa [hra, hrb] at hf)
    · exact absurd (hab.trans hob) hna
    · exact absurd (hab.symm.trans hoa) hnb
    · have hka := congrArg Prod.snd (hnew hoa hia).1.key
      have hkb := congrArg Prod.snd (hnew hob hib).1.key
      have hfe : h.filters[a.index] = h.filters[b.index] := hka.symm.trans (hf.trans hkb)
      have hix := hd.getElem_inj_iff.mp hfe
      obtain ⟨o, i⟩ := a
      obtain ⟨o', i'⟩ := b
      exact congrArg₂ Node.mk hab hix
  · rw [hprev]
    obtain hr | ⟨ho, hi⟩ := hold m
    · exact hs.head (hr ▸ hm)
    · simp [(hnew ho hi).1.unarmed] at hm
  · have hm := (hprev m).symm.trans hm
    rw [hcount, if_neg (hsame (hs.isSome_of_prev hm))]
    exact hs.lone hm
  · obtain ⟨hr, hne⟩ | ⟨ho, hi⟩ := hcases hm
    · rw [hcount, if_neg hne]
      exact hs.single (hr ▸ hm) (hr ▸ hp)
    · rw [hcount, if_pos ho]
      rw [(hnew ho hi).2] at hp
      exact Nat.le_of_not_lt fun hlt => hp (ht hlt)
  · obtain ⟨m, h₁, h₃, h₄⟩ := hs.kernel (hfil ▸ hk)
    have hne := hsame (hs.isSome_of_armed h₃)
    refine ⟨m, h₁, ?_⟩
    rw [hkeep (.inl hne)]
    exact ⟨h₃, h₄⟩
  · have hne : o ≠ op := by simpa using h₂
    rw [hcount, if_neg hne]
    exact hs.idle (hinf ▸ h₁) (by simp)

theorem Threaded.enlist (h : s.Threaded [op]) (hop : op ∉ s.inflight) :
    (s.addInflight op).Threaded [] ∧ (s.addInflight op).inflight = op :: s.inflight ∧
      (s.addInflight op).localCpu = s.localCpu := by
  have hi : s.addInflight op = { s with inflight := op :: s.inflight } := by
    simp [addInflight, hop]
  rw [hi]
  refine ⟨?_, rfl, rfl⟩
  exact { h with
    nodup := List.nodup_cons.mpr ⟨hop, h.nodup⟩
    idle  := fun {o} h₁ _ => by
      obtain ⟨hne, h₁⟩ : o ≠ op ∧ o ∉ s.inflight := by simpa using h₁
      exact h.idle h₁ (by simpa using hne) }

-- `s'` is `s` after the operations of `M` have gone to the CPU queue.
structure Hands (s s' : Context) (M : List OpId) : Prop where
  inflight : s.inflight.Perm (M ++ s'.inflight)
  localCpu : s'.localCpu.Perm (M ++ s.localCpu)

theorem Threaded.rollback (env : Env) (h : s.Threaded [op]) (hop : op ∉ s.inflight)
    (hs : ∀ n : Node, n.op = op → ¬s.Stuck n) :
    ∃ M, (s.unregisterOperation env op).Threaded [] ∧ s.Hands (s.unregisterOperation env op) M := by
  have ⟨F, hsh, ht⟩ := h.unregister env _ (by simp) hs
  have he : (s.unregisterOperation env op).removeInflight op = s.unregisterOperation env op := by
    simp [removeInflight,
      List.erase_of_not_mem fun h => hop (unregisterOperation_inflight_sublist.subset h)]
  exact ⟨F, he ▸ ht, hsh.inflight, hsh.localCpu⟩

-- By induction on the nodes that are left to be linked.
theorem Threaded.registerFrom (env : Env) {l : List Nat} (h : s.Threaded [op]) (hop : op ∉ s.inflight)
    (hd : l.Nodup) (hs : ∀ n : Node, n.op = op → ¬s.Stuck n)
    (hn : ∀ i ∈ l, i < (s.ops op).registrationCount → (s.regs ⟨op, i⟩).operation.isSome ∧
      s.Alone ⟨op, i⟩ ∧ (s.regs ⟨op, i⟩).armed = false) :
    let r := Context.registerFrom env op l s
    if r.2 < 0 then ∃ M, r.1.Threaded [] ∧ s.Hands r.1 M
    else r.1.Threaded [op] ∧ r.1.inflight = s.inflight ∧ r.1.localCpu = s.localCpu := by
  induction l generalizing s
  case nil         => simpa [Context.registerFrom] using h
  case cons i l hi =>
    simp only [Context.registerFrom]
    split
    case isFalse     => simpa using h
    case isTrue hlt  =>
      obtain ⟨h₁, h₂, h₃⟩ := hn i (by simp) hlt
      obtain ⟨r, hr, he⟩ | ⟨s', hj, he⟩ := h.append env h₁ h₂ h₃ fun h => absurd h hop
      · simp only [he, hr, if_true]
        exact h.rollback env hop hs
      · obtain ⟨hil, hd⟩ := List.nodup_cons.mp hd
        have ih := hi hj.threaded (hj.inflight ▸ hop) hd
          (fun n hn hst => (hj.stuck hst).elim (hs n hn) fun h => hop h.2) fun i' hi' hlt' => by
            have hne : (⟨op, i'⟩ : Node) ≠ ⟨op, i⟩ := fun he => by
              obtain rfl : i' = i := (Node.mk.injEq .. |>.mp he).2
              exact hil hi'
            obtain ⟨h₁, h₂, h₃⟩ := hn i' (by simp [hi']) (hj.ops ▸ hlt')
            exact ⟨(hj.stays hne).operation ▸ h₁, hj.alone hne hop h₂, (hj.unarmed hne).trans h₃⟩
        dsimp only at ih
        simp only [he, Int.lt_irrefl, if_false]
        split at ih
        case isTrue hr =>
          obtain ⟨M, ht, hm⟩ := ih
          rw [if_pos hr]
          exact ⟨M, ht, hj.inflight ▸ hm.inflight, hj.localCpu ▸ hm.localCpu⟩
        case isFalse hr =>
          rw [if_neg hr]
          exact ⟨ih.1, ih.2.1.trans hj.inflight, ih.2.2.trans hj.localCpu⟩

theorem Threaded.setOp {o : Operation} (h : s.Threaded Y) (op : OpId)
    (ho : o.registrationCount = (s.ops op).registrationCount) : (s.setOp op o).Threaded Y :=
  h.congr rfl rfl (fun op' => by by_cases he : op' = op <;> simp [he, ho]) rfl

theorem Threaded.pushCpu (h : s.Threaded Y) : (s.pushCpu op).Threaded Y :=
  h.congr rfl rfl (fun _ => rfl) rfl

-- An operation that turned out to need no event.
theorem Threaded.relax (h : s.Threaded [op]) (hc : (s.ops op).registrationCount = 0) :
    s.Threaded [] :=
  { h with
    idle := fun {o} h₁ _ => by
      by_cases ho : o = op
      case pos => exact ho ▸ hc
      case neg => exact h.idle h₁ (by simpa using ho) }

theorem Threaded.registerOperation (env : Env) (h : s.Threaded [op]) (hop : op ∉ s.inflight)
    (hn : ∀ i < (s.ops op).registrationCount, ∃ k, s.Prepared ⟨op, i⟩ k) :
    let r := s.registerOperation env op
    if r.2 < 0 then ∃ M, r.1.Threaded [] ∧ s.Hands r.1 M
    else r.1.Threaded [op] ∧ r.1.inflight = s.inflight ∧ r.1.localCpu = s.localCpu := by
  have hnodes : ∀ i < (s.ops op).registrationCount, (s.regs ⟨op, i⟩).operation.isSome ∧
      s.Alone ⟨op, i⟩ ∧ (s.regs ⟨op, i⟩).armed = false := fun i hi => by
    have ⟨_, hp⟩ := hn i hi
    exact ⟨by simp [hp.operation], ⟨hp.next, hp.prev⟩, hp.unarmed⟩
  refine h.registerFrom env hop (by simp) ?_ fun i _ hi => hnodes i hi
  rintro ⟨o, i⟩ rfl hst
  have hlt := (Context.mem_nodesOf.mp <| h.mem_nodesOf <| h.isSome_of_prev hst).2.2
  simp [Stuck, (hnodes i hlt).2.1.2] at hst

@[simp]
theorem fillRegistrations_localCpu : (fillRegistrations op h j fs s).localCpu = s.localCpu := by
  induction fs generalizing j s
  case nil          => rfl
  case cons f fs hi => exact hi

-- What becomes of the operation `consume_io_tasks` has taken and of those that fail on the way: the
-- second part says whether the operation has been put in the inflight list.
structure Takes (s : Context) (op : OpId) (r : Context × Bool) (M : List OpId) : Prop where
  threaded : r.1.Threaded []
  inflight : (if r.2 then op :: s.inflight else s.inflight).Perm (M ++ r.1.inflight)
  localCpu : r.1.localCpu.Perm (M ++ s.localCpu)

theorem Threaded.prepareAndRegister (env : Env) (h : s.Threaded []) (hop : op ∉ s.inflight) :
    ∃ M, s.Takes op (s.prepareAndRegisterOperation env op) M := by
  unfold prepareAndRegisterOperation
  obtain ⟨r, hr, hp⟩ | hp | hp := prepareIo_cases s op <;> rw [hp]
  · simp only [hr, if_true]
    exact ⟨[], h.setOp op rfl, .refl _, .refl _⟩
  · simp only [Int.lt_irrefl, if_false, setOp_ops, if_true]
    exact ⟨[], h.setOp op (h.idle hop (by simp)).symm, .refl _, .refl _⟩
  · generalize hq : (s.ops op).request.prepare = q
    obtain ⟨hd, h2, htask⟩ := hq ▸ prepare_shape (s.ops op).request
    have ht := h.prepared hop hd h2 htask
    have hi : (s.withRegistrations op q).inflight = s.inflight := by simp [withRegistrations]
    have hl : (s.withRegistrations op q).localCpu = s.localCpu := by
      simp [withRegistrations, Context.setOp]
    have hcount : ((s.withRegistrations op q).ops op).registrationCount = q.filters.length := by
      simp [withRegistrations]
    by_cases hc : ((s.withRegistrations op q).ops op).registrationCount = 0
    case pos =>
      simp only [Int.lt_irrefl, if_false, hc, if_true]
      exact ⟨[], ht.relax hc, by simp [hi], by simp [hl]⟩
    case neg =>
      have hreg := ht.registerOperation env (hi ▸ hop) fun i hlt =>
        ⟨_, withRegistrations_prepared (List.getElem?_eq_getElem (hcount ▸ hlt))⟩
      dsimp only at hreg
      simp only [Int.lt_irrefl, if_false, hc]
      generalize (s.withRegistrations op q).registerOperation env op = r at hreg
      by_cases hr : r.2 < 0
      case pos =>
        rw [if_pos hr] at hreg ⊢
        obtain ⟨M, hm, hh⟩ := hreg
        exact ⟨M, hm.setOp op rfl, hi ▸ hh.inflight, hl ▸ hh.localCpu⟩
      case neg =>
        rw [if_neg hr] at hreg ⊢
        obtain ⟨ht', hi', hl'⟩ := hreg.1.enlist (hreg.2.1 ▸ hi ▸ hop)
        refine ⟨[], ht', ?_, ?_⟩
        · simp [hi', hreg.2.1, hi]
        · simp [hl', hreg.2.2, hl]

theorem Threaded.consume (env : Env) (op : OpId) (h : s.Threaded []) (hop : op ∉ s.inflight) :
    ∃ M, (s.consumeOperation env op).Threaded [] ∧
      (op :: s.inflight).Perm (M ++ (s.consumeOperation env op).inflight) ∧
      (s.consumeOperation env op).localCpu.Perm (M ++ s.localCpu) := by
  have h₁ := h.setOp (o := { s.ops op with result := 0, flags := 0 }) op rfl
  have ⟨M, ht, hi, hl⟩ := h₁.prepareAndRegister env hop
  simp only [consumeOperation]
  split
  case isTrue hr =>
    rw [if_pos hr] at hi
    exact ⟨M, ht, hi, hl⟩
  case isFalse hr =>
    rw [if_neg hr] at hi
    exact ⟨op :: M, ht.pushCpu, hi.cons op, hl.cons op⟩

end Register

section Process

-- The nodes the events still to be processed were reported for: they are armed as long as their
-- operations wait, and each has one event at most.
structure Awaits (s : Context) (events : List Event) : Prop where
  armed : ∀ {e n}, e ∈ events → e.udata = .operation n.op → (s.regs n).operation.isSome →
    (s.regs n).filter = e.filter → (s.regs n).armed
  distinct : events.Pairwise fun e e' =>
    ∀ op, e.udata = .operation op → e'.udata = .operation op → e.filter ≠ e'.filter

theorem Threaded.awaits {events : List Event} (h : s.Threaded Y) (hf : Loop.Fired s.filters events) :
    s.Awaits events := by
  have hnode : ∀ {e op}, e ∈ events → e.udata = .operation op →
      ∃ n : Node, n.op = op ∧ (s.regs n).armed ∧ (s.regs n).key = e.key := by
    intro e op he hu
    have hm : e ∈ events.filter (·.udata.op?.isSome) := by simp [he, hu, Udata.op?]
    exact h.kernel <| (hf.1 e hm).trans (by simp [hu, Udata.op?])
  constructor
  · intro e n he hu hn hfil
    obtain ⟨m, ho, ha, hk⟩ := hnode he hu
    have hmn := h.distinct (h.isSome_of_armed ha) hn ho ((congrArg Prod.snd hk).trans hfil.symm)
    exact hmn ▸ ha
  · have hp := List.pairwise_filter.mp hf.2
    refine hp.imp_of_mem fun {e e'} he he' hne op hu hu' hfe => ?_
    obtain ⟨m, ho, ha, hk⟩ := hnode he hu
    obtain ⟨m', ho', ha', hk'⟩ := hnode he' hu'
    have hmm := h.distinct (h.isSome_of_armed ha) (h.isSome_of_armed ha') (ho.trans ho'.symm) <|
      (congrArg Prod.snd hk).trans (hfe.trans (congrArg Prod.snd hk').symm)
    exact hne (by simp [hu, Udata.op?]) (by simp [hu', Udata.op?]) <|
      hk.symm.trans (hmm ▸ hk')

theorem Awaits.tail {events : List Event} (h : s.Awaits (e :: events)) : s.Awaits events :=
  ⟨fun he => h.armed (List.mem_cons_of_mem _ he), (List.pairwise_cons.mp h.distinct).2⟩

-- What becomes of the operation of the node `n` that fired and of the others. The flag says whether
-- the operation has completed.
structure Processes (s : Context) (n : Node) (r : Context × Bool) (F : List OpId) : Prop where
  threaded : r.1.Threaded []
  inflight : s.inflight.Perm ((if r.2 then n.op :: F else F) ++ r.1.inflight)
  localCpu : r.1.localCpu.Perm (F ++ s.localCpu)
  stays : ∀ {m}, m.op ∉ F → m.op ≠ n.op → (s.regs m).Stays (r.1.regs m)
  again : r.2 = false → (r.1.ops n.op).registrationCount ≤ 1 ∧
    (r.1.regs n).operation = (s.regs n).operation ∧ (r.1.regs n).key = (s.regs n).key

-- The node `n` has left its queue, which has a new head, and its operation still waits.
structure Leaves (s : Context) (n : Node) (s' : Context) (F : List OpId) : Prop where
  threaded : s'.Threaded []
  sheds : s.Sheds s' [n.op] F
  operation : (s'.regs n).operation = (s.regs n).operation
  key : (s'.regs n).key = (s.regs n).key
  task : (s'.regs n).task = (s.regs n).task
  count : (s'.ops n.op).registrationCount = (s.ops n.op).registrationCount
  unarmed : (s'.regs n).armed = false
  alone : s'.Alone n

theorem Threaded.not_stuck_of_armed (h : s.Threaded Y) (ha : (s.regs n).armed) (he : m.op = n.op) :
    ¬s.Stuck m :=
  h.not_stuck (h.isSome_of_armed ha) (fun hs => by simp [Stuck, h.head ha] at hs) he

theorem Threaded.leave (env : Env) (h : s.Threaded []) (ha : (s.regs n).armed) :
    let s₁ := (((s.evDelete (s.regs n).key).setArmed n false).unlinkNode n).1
    ∃ F, s.Leaves n (Context.armQueueHead env s₁.inflight.length s₁ (s.regs n).waitNext) F := by
  intro s₁
  have hu : s.Unlinks n s₁ := fire_unlinks ha
  have hs := h.not_stuck_of_armed ha (m := n) rfl
  have ho : (s₁.regs n).operation = (s.regs n).operation :=
    (Registration.operation_eq unlinkNode_body).trans (by simp [setArmed])
  have hk : (s₁.regs n).key = (s.regs n).key :=
    (Registration.key_eq unlinkNode_body).trans (by simp [setArmed, Registration.key])
  have ht : (s₁.regs n).task = (s.regs n).task :=
    (Registration.task_eq unlinkNode_body).trans (by simp [setArmed])
  have h₁ := h.unlink hs hu (.inr ⟨ho, hk, ht⟩)
  have hsh₁ := h.sheds_of_unlinks hs hu (by simp [s₁]; rfl) ho.trans
  obtain ⟨F, hsh, hF, h₂, ha₂⟩ := h.armSuccessor env ha hu h₁ (by simp)
  have hst := hsh.stays hF (by simp)
  have hal : s₁.Alone n := by
    rw [Alone]
    exact ⟨(congrFun (congrArg Links.next hu.links) n).trans (by simp [Links.unlink_next]),
      (congrFun (congrArg Links.prev hu.links) n).trans (by simp [Links.unlink_prev])⟩
  refine ⟨F, h₂, ?_, hst.operation.trans ho, hst.key.trans hk, hst.task.trans ht, ?_, ha₂,
    hsh.alone hal⟩
  · refine hsh₁.trans <| hsh.widen (by simp) fun hm he => hF ?_
    exact List.mem_singleton.mp he ▸ hm
  · rw [hsh.count hF (by simp), hu.ops]

theorem Leaves.setOp {o : Operation} (h : s.Leaves n s' F)
    (ho : o.registrationCount = (s'.ops n.op).registrationCount) :
    s.Leaves n (s'.setOp n.op o) F := by
  have hc : ∀ o', ((s'.setOp n.op o).ops o').registrationCount = (s'.ops o').registrationCount :=
    fun o' => by by_cases he : o' = n.op <;> simp [he, ho]
  refine ⟨h.threaded.setOp n.op ho, ?_, h.operation, h.key, h.task, (hc _).trans h.count, h.unarmed,
    h.alone⟩
  exact ⟨⟨h.sheds.inflight, h.sheds.localCpu, h.sheds.spared, h.sheds.stays⟩,
    fun h₁ h₂ => (hc _).trans (h.sheds.count h₁ h₂), h.sheds.clean, h.sheds.stuck, h.sheds.alone⟩

theorem Leaves.complete (env : Env) (h : s.Leaves n s' F) (hs : s.Threaded [])
    (ha : (s.regs n).armed) :
    ∃ G, s.Processes n ((s'.unregisterOperation env n.op).removeInflight n.op, true) G := by
  have ⟨G, hsh, ht⟩ := h.threaded.unregister env n.op (by simp) fun m hm hst =>
    hs.not_stuck_of_armed ha hm (h.sheds.stuck hst)
  have hall := h.sheds.trans hsh
  have hin : n.op ∈ (s'.unregisterOperation env n.op).inflight := by
    have hi := (hs.active (hs.isSome_of_armed ha)).resolve_right (by simp)
    exact (List.mem_append.mp <| hall.inflight.mem_iff.mp hi).resolve_left fun hm =>
      hall.spared hm (by simp)
  refine ⟨F ++ G, ht, ?_, hall.localCpu, fun h₁ h₂ => hall.stays h₁ (by simpa using h₂), by simp⟩
  have hp := hall.inflight.trans <| (List.perm_cons_erase hin).append_left (F ++ G)
  simpa [removeInflight] using hp.trans List.perm_middle

theorem Leaves.rearm (env : Env) (h : s.Leaves n s' F) (hs : s.Threaded [])
    (ha : (s.regs n).armed) (hp : (s.regs n).task ≠ .poll) :
    let r := s'.tryRearmOperation env n.op n
    ∃ G, s.Processes n (if !r.2 then ((r.1.unregisterOperation env n.op).removeInflight n.op, true)
      else (r.1, false)) G := by
  have hn := hs.isSome_of_armed ha
  have hc := h.count ▸ hs.single hn hp
  unfold tryRearmOperation
  obtain ⟨r, hr, he⟩ | ⟨t, hj, he⟩ := h.threaded.append env (h.operation ▸ hn) h.alone h.unarmed
    fun _ => hc
  · simp only [he, ge_iff_le, Int.not_le.mpr hr, if_false]
    exact (h.setOp (o := { s'.ops n.op with result := r }) rfl).complete env hs ha
  · simp only [he, ge_iff_le, Int.le_refl, if_true]
    refine ⟨F, hj.threaded, ?_, ?_, fun {m} h₁ h₂ => ?_, fun _ => ⟨?_, ?_, ?_⟩⟩
    · simpa [hj.inflight] using h.sheds.inflight
    · simpa [hj.localCpu] using h.sheds.localCpu
    · exact (h.sheds.stays h₁ (by simpa using h₂)).trans (hj.stays fun he => h₂ (he ▸ rfl))
    · simpa [hj.ops] using hc
    · exact hj.operation.trans h.operation
    · exact hj.key.trans h.key

theorem ne_poll_of_blocks {task : Task} (h : e.Blocks env op task) : task ≠ .poll := by
  rintro rfl
  exact h

theorem Threaded.processFired (env : Env) (h : s.Threaded []) (ha : (s.regs n).armed) :
    ∃ F, s.Processes n (s.processFired env e n.op n) F := by
  have hnext : (((s.evDelete (s.regs n).key).setArmed n false).unlinkNode n).2 =
      (s.regs n).waitNext := by simp [unlinkNode_snd, setArmed]
  obtain ⟨F, hf⟩ := h.leave env ha
  simp only [Context.processFired, hnext]
  generalize (((s.evDelete (s.regs n).key).setArmed n false).unlinkNode n).1 = s₁ at hf ⊢
  generalize Context.armQueueHead env s₁.inflight.length s₁ (s.regs n).waitNext = s₂ at hf ⊢
  have hf₃ := hf.setOp (o := { s₂.ops n.op with flags := e.flags }) rfl
  generalize s₂.setOp n.op { s₂.ops n.op with flags := e.flags } = s₃ at hf₃ ⊢
  by_cases hb : e.Blocks env n.op (s.regs n).task
  case pos =>
    rw [dispatchEventResult_of_blocks (hf₃.task ▸ hb)]
    exact (hf₃.setOp (o := { s₃.ops n.op with result := -eagain }) rfl).rearm env h ha
      (ne_poll_of_blocks hb)
  case neg =>
    obtain ⟨r, hd⟩ := dispatchEventResult_of_not_blocks (hf₃.task ▸ hb)
    rw [hd]
    exact (hf₃.setOp (o := { s₃.ops n.op with result := r }) rfl).complete env h ha

-- An operation that has left the inflight list has no registered node.
theorem Threaded.findFiredNode_eq_none {f : Int} (h : s.Threaded []) (hop : op ∉ s.inflight) :
    s.findFiredNode op f = none := by
  refine List.find?_eq_none.mpr fun n hn => ?_
  have hnone := h.idle_none hop (by simp) (Context.mem_nodesOf.mp hn).1
  simp [hnone]

theorem Threaded.processEvent_stale (env : Env) (h : s.Threaded []) (hu : e.udata = .operation op)
    (hop : op ∉ s.inflight) : s.processEvent env e = (s, false) := by
  simp [Context.processEvent, hu, h.findFiredNode_eq_none hop]

-- The events left of a batch still find what they were reported for.
theorem Processes.awaits {r : Context × Bool} {events : List Event} (h : s.Processes n r F)
    (hs : s.Threaded []) (hn : (s.regs n).operation.isSome) (hu : e.udata = .operation n.op)
    (hf : (s.regs n).filter = e.filter) (hw : s.Awaits (e :: events)) : r.1.Awaits events := by
  have ⟨hd, hd'⟩ := List.pairwise_cons.mp hw.distinct
  refine ⟨fun {e' m} he' hu' hm hfm => ?_, hd'⟩
  have hin := (h.threaded.active hm).resolve_right (by simp)
  have hnodup := h.inflight.nodup_iff.mp hs.nodup
  have hF : m.op ∉ F := fun hmF => by
    refine (List.nodup_append.mp hnodup).2.2 m.op ?_ m.op hin rfl
    split <;> simp [hmF]
  by_cases hmn : m.op = n.op
  case pos =>
    cases hr : r.2
    case true  =>
      -- the operation has completed and waits no more
      simp only [hr, if_true] at hnodup
      exact absurd rfl <| (List.nodup_append.mp hnodup).2.2 n.op (by simp) m.op hin ∘ (hmn ▸ ·)
    case false =>
      -- `n` is the only node of the operation, and its event was the one just processed
      have ⟨hc, ho, hk⟩ := h.again hr
      have hi := Context.mem_nodesOf.mp <| h.threaded.mem_nodesOf hm
      have hj := Context.mem_nodesOf.mp <| h.threaded.mem_nodesOf (ho ▸ hn)
      rw [hmn] at hi
      obtain rfl : m = n := by
        obtain ⟨o, i⟩ := m
        obtain ⟨o', j⟩ := n
        exact congrArg₂ Node.mk hmn (by simp only at hi hj hc; omega)
      refine absurd ?_ (hd e' he' m.op hu hu')
      exact hf.symm.trans <| (congrArg Prod.snd hk).symm.trans hfm
  case neg =>
    have hst := h.stays hF hmn
    refine hst.armed <| hw.armed (List.mem_cons_of_mem _ he') hu' (hst.operation ▸ hm) ?_
    exact (congrArg Prod.snd hst.key).symm.trans hfm

-- The list of tasks the event `e` adds to, given the flag of `process_event`.
def completedTask (e : Event) (completed : Bool) : List OpId :=
  if completed then e.udata.op?.toList else []

theorem Threaded.processEvent (env : Env) {events : List Event} (h : s.Threaded [])
    (hw : s.Awaits (e :: events)) :
    let r := s.processEvent env e
    ∃ F, r.1.Threaded [] ∧ r.1.Awaits events ∧
      s.inflight.Perm (completedTask e r.2 ++ F ++ r.1.inflight) ∧
      r.1.localCpu.Perm (F ++ s.localCpu) := by
  have hsame : ∃ F, s.Threaded [] ∧ s.Awaits events ∧
      s.inflight.Perm (completedTask e false ++ F ++ s.inflight) ∧ s.localCpu.Perm (F ++ s.localCpu) :=
    ⟨[], h, hw.tail, .refl _, .refl _⟩
  unfold Context.processEvent
  split
  case h_4 op hu =>
    cases hn : s.findFiredNode op e.filter
    case none   => exact hsame
    case some n =>
      have hp := List.find?_some hn
      simp only [Bool.and_eq_true, decide_eq_true_eq] at hp
      obtain rfl := (Context.mem_nodesOf.mp <| List.mem_of_find?_eq_some hn).1
      have ha := hw.armed (by simp) hu hp.1 hp.2
      have ⟨F, hF⟩ := h.processFired env (e := e) ha
      refine ⟨F, hF.threaded, hF.awaits h hp.1 hu hp.2 hw, hF.inflight.trans (.of_eq ?_), hF.localCpu⟩
      cases (s.processFired env e n.op n).2 <;> simp [completedTask, hu, Udata.op?]
  all_goals exact hsame

end Process

section Abort

variable {l : List OpId}

theorem abortNode_regs_cases (s : Context) (op : OpId) (i : Nat) :
    (s.abortNode op i).regs m = s.regs m ∨ (s.abortNode op i).regs m = {} := by
  by_cases hm : m = ⟨op, i⟩
  case neg => exact .inl (abortNode_regs hm)
  case pos =>
    subst hm
    simp only [abortNode]
    split
    case isTrue  => exact .inr (by simp)
    case isFalse => exact .inl rfl

theorem Threaded.abortNode_operation {i : Nat}
    (h : (s.regs ⟨op, i⟩).operation.isSome → i < (s.ops op).registrationCount) :
    ((s.abortNode op i).regs ⟨op, i⟩).operation = none := by
  simp only [abortNode]
  split
  case isTrue     => simp
  case isFalse hr => exact Option.not_isSome_iff_eq_none.mp fun hi => hr ⟨h hi, hi⟩

theorem abortOperation_regs_cases (s : Context) (op : OpId) :
    (s.abortOperation op).regs m = s.regs m ∨ (s.abortOperation op).regs m = {} := by
  have he : (s.abortOperation op).regs m = ((s.abortNode op 0).abortNode op 1).regs m := rfl
  rw [he]
  obtain h₁ | h₁ := abortNode_regs_cases (m := m) (s.abortNode op 0) op 1
  · rw [h₁]
    exact abortNode_regs_cases s op 0
  · exact .inr h₁

-- Registrations are only wiped out by the loop.
theorem abort_fold_regs_cases :
    (l.foldl abortOperation s).regs m = s.regs m ∨ (l.foldl abortOperation s).regs m = {} := by
  induction l generalizing s
  case nil          => exact .inl rfl
  case cons op l hi =>
    obtain h | h := hi (s := s.abortOperation op)
    · rw [List.foldl_cons, h]
      exact abortOperation_regs_cases s op
    · exact .inr h

theorem abortOperation_operation
    (h : (s.regs n).operation.isSome → n ∈ s.nodesOf n.op) (he : n.op = op) (hi : n.index < 2) :
    ((s.abortOperation op).regs n).operation = none := by
  have hr : (s.abortOperation op).regs n = ((s.abortNode op 0).abortNode op 1).regs n := rfl
  have hlt : (s.regs n).operation.isSome → n.index < (s.ops n.op).registrationCount :=
    fun hn => (mem_nodesOf.mp (h hn)).2.2
  rw [hr]
  obtain ⟨o, i⟩ := n
  obtain rfl : o = op := he
  have h2 : i = 0 ∨ i = 1 := by simp only at hi; omega
  rcases h2 with rfl | rfl
  · rw [abortNode_regs (by simp)]
    exact Threaded.abortNode_operation hlt
  · refine Threaded.abortNode_operation fun hn => ?_
    rw [abortNode_regs (by simp)] at hn
    simpa using hlt hn

theorem abort_fold_operation (h : ∀ n, (s.regs n).operation.isSome → n ∈ s.nodesOf n.op)
    (hn : n.op ∈ l) (hi : n.index < 2) : ((l.foldl abortOperation s).regs n).operation = none := by
  induction l generalizing s
  case nil          => simp at hn
  case cons op l hl =>
    by_cases he : n.op = op
    case pos =>
      have hnone := abortOperation_operation (h n) he hi
      obtain hr | hr := abort_fold_regs_cases (s := s.abortOperation op) (l := l) (m := n)
      all_goals simp [hr, hnone]
    case neg =>
      refine hl (fun m hm => ?_) (by simpa [he] using hn)
      obtain hr | hr := abortOperation_regs_cases (m := m) s op
      · rw [hr] at hm
        by_cases hme : m.op = op
        case pos =>
          have hnone := abortOperation_operation (h m) hme (mem_nodesOf.mp (h m hm)).2.1
          simp [← hr, hnone] at hm
        case neg => exact mem_nodesOf_congr (by simp [abortOperation_count, hme]) |>.mpr (h m hm)
      · simp [hr] at hm

theorem abort_fold_localCpu :
    (l.foldl abortOperation s).localCpu = l.reverse ++ s.localCpu := by
  have ha : ∀ {s : Context} {op i}, (s.abortNode op i).localCpu = s.localCpu := by
    intro s op i
    simp only [abortNode, setReg]
    split
    case isTrue  => split <;> rfl
    case isFalse => rfl
  induction l generalizing s
  case nil          => rfl
  case cons op l hi =>
    rw [List.foldl_cons, hi]
    simp [abortOperation, completeSubmitStopped, Context.setOp, Context.pushCpu, ha]

theorem Threaded.abort (h : s.Threaded []) : s.abortInflightIo.Threaded [] ∧
    s.abortInflightIo.inflight = [] ∧ s.abortInflightIo.localCpu = s.inflight.reverse ++ s.localCpu := by
  have hi : s.abortInflightIo.inflight = [] := abort_fold_inflight
  have ⟨hc, hf⟩ := abort_fold (s := { s with inflight := [] }) (l := s.inflight)
    (fun op hop => h.idle hop (by simp)) fun k => by
      cases hk : s.filters k
      case none    => exact .inl rfl
      case some op =>
        have ⟨n, _, ha, hkey⟩ := h.kernel hk
        have hn := h.isSome_of_armed ha
        exact .inr ⟨n, (h.active hn).resolve_right (by simp), h.mem_nodesOf hn, hn, ha, hkey⟩
  have hf : ∀ k, s.abortInflightIo.filters k = none := hf
  have hnone : ∀ n, (s.abortInflightIo.regs n).operation = none := by
    intro n
    by_cases hn : (s.regs n).operation.isSome
    case pos =>
      exact abort_fold_operation (s := { s with inflight := [] }) (fun m hm => h.mem_nodesOf hm)
        ((h.active hn).resolve_right (by simp)) (Context.mem_nodesOf.mp <| h.mem_nodesOf hn).2.1
    case neg =>
      have hn := Option.not_isSome_iff_eq_none.mp hn
      obtain hr | hr := abort_fold_regs_cases (s := { s with inflight := [] }) (l := s.inflight) (m := n)
      · exact (congrArg Registration.operation hr).trans hn
      · exact congrArg Registration.operation hr
  have hblank : ∀ n, (s.abortInflightIo.regs n).waitNext = none ∧
      (s.abortInflightIo.regs n).waitPrev = none ∧ (s.abortInflightIo.regs n).armed = false := by
    intro n
    have hn := hnone n
    obtain hr | hr : s.abortInflightIo.regs n = s.regs n ∨ s.abortInflightIo.regs n = {} :=
      abort_fold_regs_cases
    · rw [hr] at hn ⊢
      exact h.clean hn
    · simp [hr]
  have hnext : ∀ n, s.abortInflightIo.links.next n = none := fun n => (hblank n).1
  have hprev : ∀ n, s.abortInflightIo.links.prev n = none := fun n => (hblank n).2.1
  refine ⟨⟨⟨?_, ?_, ⟨fun _ => 0, ?_⟩⟩, ?_, fun _ => hblank _, ?_, ?_, ?_, ?_, ?_,
    fun hk => absurd hk (by simp [hf]), by simp [hi], fun _ _ => hc _⟩, hi, abort_fold_localCpu⟩
  all_goals simp [hnext, hprev, hblank, hnone, Stuck]

end Abort

end Context
end Bnio.Kqueue
