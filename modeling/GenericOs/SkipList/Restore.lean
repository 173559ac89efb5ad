import GenericOs.SkipList.Run

/-!
# Nodes that come and go

The nodes of the list stay while the client inserts and removes others. They keep their order, and when the others
are gone they are linked on every level as they were.
-/

namespace GenericOs.SkipList

open Transition

variable {α : Type}

/-- The node that a call is about. -/
def Op.node : Op α → α
  | .init n _ => n
  | .setWeight n _ => n
  | .insert n _ => n
  | .remove n _ => n

/-- What the client keeps in a node, and what it remembers of it. -/
structure Same (st st' : State α) (a : α) : Prop where
  status : st'.status a = st.status a
  weight : st'.heap.weight a = st.heap.weight a
  payload : st'.heap.payload a = st.heap.payload a

theorem Same.refl (st : State α) (a : α) : Same st st a := ⟨rfl, rfl, rfl⟩

theorem Same.trans {st₁ st₂ st₃ : State α} {a : α} (h : Same st₁ st₂ a) (h' : Same st₂ st₃ a) : Same st₁ st₃ a :=
  ⟨h'.status.trans h.status, h'.weight.trans h.weight, h'.payload.trans h.payload⟩

/-- The sentinel's `Next` pointers, the pointers of the linked nodes below their heights, and the heights. -/
structure Restored (s : α) (st st' : State α) : Prop where
  sentinel : ∀ i < skipListMaxLevels, st'.heap.next i s = st.heap.next i s
  next : ∀ n height, st.status n = .linked height → ∀ i < min height skipListMaxLevels,
    st'.heap.next i n = st.heap.next i n
  prev : ∀ n height, st.status n = .linked height → ∀ i < min height skipListMaxLevels,
    st'.heap.prev i n = st.heap.prev i n
  height : ∀ n height, st.status n = .linked height →
    skipListNodeHeight (st'.heap.node n) = skipListNodeHeight (st.heap.node n)

variable [DecidableEq α] {s a : α} {st st₀ st' : State α} {xs xs₀ xs' : List α} {ht : α → Nat} {op : Op α}
  {fuel : Nat}

/-- The call does not remove a node of `keep`. -/
def Leaves (s : α) (keep : α → Prop) (st : State α) (op : Op α) : Prop :=
  Admissible s st op ∧ ∀ n weight, op = .remove n weight → ¬ keep n

omit [DecidableEq α] in
theorem Leaves.node_ne {keep : α → Prop} (h : Leaves s keep st op) (hkeep : keep a) (hlinked : IsLinked st a) :
    a ≠ op.node := by
  obtain ⟨hadmissible, hremove⟩ := h
  rintro rfl
  cases op with
  | init n payload => exact hadmissible.2 hlinked
  | setWeight n weight => exact hadmissible.2 hlinked
  | insert n height =>
    obtain ⟨k, hk⟩ := hlinked
    simp only [Op.node] at hk
    simp [Admissible, hk] at hadmissible
  | remove n weight => exact hremove n weight rfl hkeep

/-! ## One call -/

theorem reweigh_other {h h' : Heap α} {n : α} {weight : Option Nat} (hrun : reweigh h n weight = some h')
    (hne : a ≠ n) : h'.node a = h.node a := by
  cases weight with
  | none =>
    obtain rfl := Option.some.inj hrun
    rfl
  | some w =>
    by_cases hl : h.live n
    · obtain rfl := Option.some.inj ((Heap.setWeight_eq hl).symm.trans hrun)
      simp [Heap.withWeight, Heap.node_set, hne]
    · simp [reweigh, setSkipListWeight, Heap.setWeight, Heap.load, hl] at hrun

omit [DecidableEq α] in
theorem Relinked.same {F : Set α} {h : Heap α} {status : α → Status} (hr : Relinked F st.heap h)
    (hstatus : status a = st.status a) : Same st ⟨h, status⟩ a := ⟨hstatus, hr.weight a, hr.payload a⟩

omit [DecidableEq α] in
theorem Inv.absent {n : α} {height : Nat} (hI : Inv s st xs ht) (ha : Admissible s st (.insert n height)) :
    n ∉ s :: xs := by
  have hstatus : st.status n = .fresh ∨ st.status n = .removed := ha.1
  rw [List.mem_cons, hI.mem n]
  rintro (rfl | ⟨k, hk⟩)
  · simp [hI.sentinel] at hstatus
  · simp [hk] at hstatus

theorem skipListRemove_relinked {n : α} {weight : Option Nat} {h : Heap α} (hI : Inv s st xs ht)
    (ha : Admissible s st (.remove n weight)) (hrun : reweigh st.heap n weight = some h) :
    ∃ F h', skipListRemove h (some n) = some h' ∧ Relinked F h h' := by
  obtain ⟨h₁, hrun₁, hlive, hlinks, hweight⟩ := reweigh_spec hI n weight
  obtain rfl : h₁ = h := Option.some.inj (hrun₁.symm.trans hrun)
  rcases ha with hlinked | hfresh
  · obtain ⟨before, behind, rfl⟩ := List.append_of_mem ((hI.mem n).mpr hlinked)
    obtain ⟨h', hremove, -, -, hr⟩ := skipListRemove_reweighed hI.threaded hI.sorted hlive hlinks hweight
    exact ⟨_, h', hremove, hr⟩
  · refine ⟨∅, h₁, skipListRemove_unlinked ?_ ?_, .refl _ h₁⟩
    · rw [hlive]
      exact hI.live n
    · rw [(hlinks n 0).2]
      exact hI.fresh n hfresh

/-- A call changes no other node but for its links. -/
theorem Step.other (hI : Inv s st xs ht) (ha : Admissible s st op) (h : Step s st op st') (hne : a ≠ op.node) :
    Same st st' a := by
  cases op with
  | init n payload =>
    have hrun := skipListInitNode_spec (hI.live n) payload
    have hexec : Step s st (.init n payload)
        ⟨st.heap.set n { (Node.zero : Node α) with payload := payload }, Function.update st.status n .fresh⟩ :=
      ⟨0, fun fuel _ => by simp [exec, hrun]⟩
    obtain rfl := hexec.unique h
    refine ⟨Function.update_of_ne hne _ _, ?_, ?_⟩
    · simp [Heap.weight, Heap.node_set, show a ≠ n from hne]
    · simp [Heap.payload, Heap.node_set, show a ≠ n from hne]
  | setWeight n weight =>
    have hrun : setSkipListWeight st.heap n weight = some (st.heap.withWeight n weight) :=
      Heap.setWeight_eq (hI.live n)
    have hexec : Step s st (.setWeight n weight) ⟨st.heap.withWeight n weight, st.status⟩ :=
      ⟨0, fun fuel _ => by simp [exec, hrun]⟩
    obtain rfl := hexec.unique h
    exact ⟨rfl, (Heap.weight_withWeight).trans (if_neg hne), Heap.payload_withWeight⟩
  | insert n height =>
    obtain ⟨h', hrun, -, -, hr⟩ :=
      skipListInsert_spec hI.threaded hI.sorted (hI.absent ha) (hI.live n) ha.2
    have hexec : Step s st (.insert n height) ⟨h', Function.update st.status n (.linked height)⟩ :=
      ⟨xs.length + 1, fun fuel hfuel => by simp [exec, hrun fuel hfuel]⟩
    obtain rfl := hexec.unique h
    exact hr.same (Function.update_of_ne hne _ _)
  | remove n weight =>
    obtain ⟨h₁, hweigh, -⟩ := reweigh_spec hI n weight
    obtain ⟨F, h', hremove, hr⟩ := skipListRemove_relinked hI ha hweigh
    have hexec : Step s st (.remove n weight) ⟨h', Function.update st.status n (st.status n).unlink⟩ :=
      ⟨0, fun fuel _ => by simp [exec, hweigh, hremove]⟩
    obtain rfl := hexec.unique h
    have hnode := reweigh_other hweigh hne
    refine ⟨Function.update_of_ne hne _ _, (hr.weight a).trans ?_, (hr.payload a).trans ?_⟩
    · unfold Heap.weight
      rw [hnode]
    · unfold Heap.payload
      rw [hnode]

/-! ## Runs -/

/-- `xs₀` are the nodes that were linked at the start. -/
structure Kept (s : α) (st₀ : State α) (xs₀ : List α) (st : State α) (xs : List α) (ht : α → Nat) : Prop where
  inv : Inv s st xs ht
  order : xs₀.Sublist xs
  same : ∀ a ∈ xs₀, Same st₀ st a

omit [DecidableEq α] in
theorem Kept.linked (h : Kept s st₀ xs₀ st xs ht) (ha : a ∈ xs₀) : IsLinked st a :=
  (h.inv.mem a).mp (h.order.subset ha)

theorem Kept.order_step (h : Kept s st₀ xs₀ st xs ht) (hzero : LevelZero st op xs xs')
    (hl : Leaves s (· ∈ xs₀) st op) : xs₀.Sublist xs' := by
  have horder := h.order
  cases op with
  | init n payload => exact hzero ▸ horder
  | setWeight n weight => exact hzero ▸ horder
  | insert n height =>
    obtain ⟨light, heavy, rfl, rfl, -⟩ := hzero
    exact horder.trans ((List.sublist_cons_self n heavy).append_left light)
  | remove n weight =>
    by_cases hlinked : IsLinked st n
    · obtain ⟨before, behind, rfl, rfl⟩ := hzero.1 hlinked
      have hnodup := (List.nodup_cons.mp h.inv.threaded.nodup).2
      have hn : n ∉ before := fun hm => (List.nodup_append.mp hnodup).2.2 n hm n (by simp) rfl
      have herase := horder.erase n
      rwa [List.erase_of_not_mem (hl.2 n weight rfl), List.erase_append_right _ hn, List.erase_cons_head] at herase
    · exact hzero.2 hlinked ▸ horder

theorem Kept.step (h : Kept s st₀ xs₀ st xs ht) (hl : Leaves s (· ∈ xs₀) st op) (hstep : Step s st op st') :
    ∃ xs' ht', Kept s st₀ xs₀ st' xs' ht' := by
  obtain ⟨st₁, xs', ht', hrun, hI', hzero⟩ := exec_spec h.inv hl.1
  obtain rfl : st₁ = st' := Step.unique ⟨_, hrun⟩ hstep
  refine ⟨xs', ht', hI', h.order_step hzero hl, fun a ha => ?_⟩
  exact (h.same a ha).trans (hstep.other h.inv hl.1 (hl.node_ne ha (h.linked ha)))

theorem Kept.run {ops : List (Op α)} (h : Kept s st₀ xs₀ st xs ht)
    (hs : Steps (client s) (Leaves s (· ∈ xs₀)) st ops st') : ∃ xs' ht', Kept s st₀ xs₀ st' xs' ht' := by
  induction hs generalizing xs ht with
  | nil => exact ⟨xs, ht, h⟩
  | cons ha hstep _ ih =>
    obtain ⟨xs₁, ht₁, h₁⟩ := h.step ha hstep
    exact ih h₁

omit [DecidableEq α] in
/-- With the same nodes again there is one order that they can have. -/
theorem Kept.all (h : Kept s st₀ xs₀ st xs ht) (hgone : ∀ n, IsLinked st n → n ∈ xs₀) : xs = xs₀ := by
  have hnodup := (List.nodup_cons.mp h.inv.threaded.nodup).2
  have hsubset : xs ⊆ xs₀ := fun n hn => hgone n ((h.inv.mem n).mp hn)
  exact (h.order.eq_of_length_le (hnodup.length_le_of_subset hsubset)).symm

omit [DecidableEq α] in
theorem Inv.restored {ht' : α → Nat} (hI : Inv s st xs ht) (hI' : Inv s st' xs ht')
    (hsame : ∀ a ∈ xs, Same st st' a) : Restored s st st' := by
  have hheight : ∀ a ∈ xs, ht' a = ht a := by
    intro a ha
    obtain ⟨k, hk⟩ := (hI.mem a).mp ha
    rw [hI.height a k hk, hI'.height a k ((hsame a ha).status.trans hk)]
  have hlevel : ∀ i, level ht' i xs = level ht i xs := fun i =>
    List.filter_congr fun a ha => by rw [hheight a ha]
  have hpointers : ∀ i < skipListMaxLevels, (∀ a ∈ s :: level ht i xs, st'.heap.next i a = st.heap.next i a) ∧
      ∀ a ∈ level ht i xs, st'.heap.prev i a = st.heap.prev i a := fun i hi =>
    (hI.threaded.chain i hi).same (hlevel i ▸ hI'.threaded.chain i hi)
  have hmem : ∀ n height, st.status n = .linked height → ∀ i < min height skipListMaxLevels,
      i < skipListMaxLevels ∧ n ∈ level ht i xs := by
    intro n height hn i hi
    refine ⟨by omega, mem_level.mpr ⟨(hI.mem n).mpr ⟨height, hn⟩, ?_⟩⟩
    rwa [hI.height n height hn]
  refine ⟨fun i hi => (hpointers i hi).1 s (by simp), fun n height hn i hi => ?_, fun n height hn i hi => ?_,
    fun n height hn => ?_⟩
  · obtain ⟨hmax, hm⟩ := hmem n height hn i hi
    exact (hpointers i hmax).1 n (List.mem_cons_of_mem s hm)
  · obtain ⟨hmax, hm⟩ := hmem n height hn i hi
    exact (hpointers i hmax).2 n hm
  · have hm := (hI.mem n).mpr ⟨height, hn⟩
    rw [hI.threaded.nodeHeight hm, hI'.threaded.nodeHeight hm, hheight n hm]

/-- The nodes that stay keep their order, their weights and their payloads whatever comes and goes around them.
When nothing else is left in the list, they are linked on every level as they were. -/
theorem visitors_leave {ops : List (Op α)} (hr : Reachable (client s) (Admissible s) st)
    (hs : Steps (client s) (Leaves s (IsLinked st)) st ops st') :
    ∃ xs xs', Pointer.Chain (st.heap.next 0) (st.heap.prev 0) s xs ∧
      Pointer.Chain (st'.heap.next 0) (st'.heap.prev 0) s xs' ∧ xs.Sublist xs' ∧ (∀ a ∈ xs, Same st st' a) ∧
      ((∀ n, IsLinked st' n → IsLinked st n) → Restored s st st') := by
  obtain ⟨xs, ht, hI⟩ := reachable_inv hr
  have hkeep : IsLinked st = (· ∈ xs) := funext fun n => propext (hI.mem n).symm
  rw [hkeep] at hs
  obtain ⟨xs', ht', h⟩ := Kept.run ⟨hI, .refl xs, fun a _ => .refl st a⟩ hs
  refine ⟨xs, xs', hI.threaded.chain_zero, h.inv.threaded.chain_zero, h.order, h.same, fun hgone => ?_⟩
  obtain rfl := h.all fun n hn => (hI.mem n).mpr (hgone n hn)
  exact hI.restored h.inv h.same

/-- One node stays, and another one comes, higher than it, and goes. -/
theorem visitors_leave_one : ∃ st st', st.status 1 = .linked 2 ∧
    Steps (client (0 : Fin 3)) (Leaves 0 (IsLinked st)) st [.insert 2 5, .remove 2 (some 8)] st' ∧
    Restored 0 st st' := by
  have hops : (([.init 1 7, .insert 1 2, .init 2 9] : List (Op (Fin 3))).foldlM (remembered 0) fun _ => .raw).map
      (fun status => (status 1, status 2)) = some (.linked 2, .fresh) := by decide +kernel
  obtain ⟨status, hops, hlast⟩ := Option.map_eq_some_iff.mp hops
  obtain ⟨hone, htwo⟩ := Prod.mk.inj hlast
  have hinit : Reachable (client (0 : Fin 3)) (Admissible 0) (zeroState (Fin 3)) := .init (zeroState_start 0)
  obtain ⟨st, hsteps, rfl⟩ := client_steps hinit hops
  have hr := hinit.steps hsteps
  have hadd : Admissible 0 st (.insert 2 5) := ⟨Or.inl htwo, by decide⟩
  obtain ⟨st₁, hstep₁, hr₁, hst₁⟩ := client_step hr hadd
  have hremove : Admissible 0 st₁ (.remove 2 (some 8)) := Or.inl ⟨5, by simp [hst₁, Op.remember]⟩
  obtain ⟨st', hstep', -, hst'⟩ := client_step hr₁ hremove
  have hrun : Steps (client (0 : Fin 3)) (Leaves 0 (IsLinked st)) st [.insert 2 5, .remove 2 (some 8)] st' := by
    refine .cons ⟨hadd, by simp⟩ hstep₁ (.cons ⟨hremove, ?_⟩ hstep' .nil)
    rintro n weight ⟨⟩
    exact not_linked htwo
  obtain ⟨xs, xs', -, -, -, -, hrestored⟩ := visitors_leave hr hrun
  refine ⟨st, st', hone, hrun, hrestored fun n hn => ?_⟩
  by_cases hn2 : n = 2
  · subst hn2
    obtain ⟨k, hk⟩ := hn
    simp [hst', hst₁, Op.remember, Status.unlink] at hk
  · simpa [IsLinked, hst', hst₁, Op.remember, hn2] using hn

end GenericOs.SkipList
