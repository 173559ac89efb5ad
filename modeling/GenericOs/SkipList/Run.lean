import GenericOs.Library.Transition
import GenericOs.SkipList.Proofs

/-!
# Runs of one skip list

A client works on one list: it initialises nodes, gives them a weight, inserts and
removes them. `status` is what the client remembers of each node.
-/

namespace GenericOs.SkipList

open Transition

variable {α : Type} [DecidableEq α]

inductive Status where
  | raw
  | fresh
  | linked (height : Nat)
  | removed
  deriving DecidableEq

structure State (α : Type) where
  heap : Heap α
  status : α → Status

/-- The calls of the client. A removal may be preceded by a new weight for the node. -/
inductive Op (α : Type) where
  | init (n : α) (payload : Nat)
  | setWeight (n : α) (weight : Nat)
  | insert (n : α) (height : Nat)
  | remove (n : α) (weight : Option Nat)

/-- A removal of a node that is only initialised leaves it initialised. -/
def Status.unlink : Status → Status
  | .linked _ => .removed
  | st => st

def reweigh (h : Heap α) (n : α) : Option Nat → Option (Heap α)
  | none => some h
  | some w => setSkipListWeight h n w

def exec (fuel : Nat) (s : α) (st : State α) : Op α → Option (State α)
  | .init n payload => do
    let h ← skipListInitNode st.heap n payload
    return ⟨h, Function.update st.status n .fresh⟩
  | .setWeight n weight => do
    let h ← setSkipListWeight st.heap n weight
    return ⟨h, st.status⟩
  | .insert n height => do
    let h ← skipListInsert fuel st.heap (some s) (some n) height
    return ⟨h, Function.update st.status n (.linked height)⟩
  | .remove n weight => do
    let h ← reweigh st.heap n weight
    let h ← skipListRemove h (some n)
    return ⟨h, Function.update st.status n (st.status n).unlink⟩

def IsLinked (st : State α) (n : α) : Prop := ∃ height, st.status n = .linked height

/-- A linked node is not initialised again, and gets a new weight only with its removal. -/
def Admissible (s : α) (st : State α) : Op α → Prop
  | .init n _ => n ≠ s ∧ ¬ IsLinked st n
  | .setWeight n _ => n ≠ s ∧ ¬ IsLinked st n
  | .insert n height => (st.status n = .fresh ∨ st.status n = .removed) ∧ 0 < height
  | .remove n _ => IsLinked st n ∨ st.status n = .fresh

/-- An all-zero sentinel and arbitrary contents everywhere else. -/
structure Start (s : α) (st : State α) : Prop where
  sentinel : st.heap.node s = Node.zero
  live : ∀ a, st.heap.live a
  raw : ∀ a, st.status a = .raw

/-- A call takes the state to `st'` if it does so with enough rounds for its loops. -/
def Step (s : α) (st : State α) (op : Op α) (st' : State α) : Prop :=
  ∃ rounds, ∀ fuel ≥ rounds, exec fuel s st op = some st'

def client (s : α) : System (State α) (Op α) := { init := Start s, step := Step s }

/-- What the client remembers after a call. -/
def Op.remember (status : α → Status) : Op α → α → Status
  | .init n _ => Function.update status n .fresh
  | .setWeight _ _ => status
  | .insert n height => Function.update status n (.linked height)
  | .remove n _ => Function.update status n (status n).unlink

/-! ## The invariant -/

structure Inv (s : α) (st : State α) (xs : List α) (ht : α → Nat) : Prop where
  threaded : Threaded st.heap s xs ht
  sorted : Sorted st.heap xs
  live : ∀ a, st.heap.live a
  mem : ∀ n, n ∈ xs ↔ IsLinked st n
  height : ∀ n height, st.status n = .linked height → ht n = min height skipListMaxLevels
  fresh : ∀ n, st.status n = .fresh → st.heap.prev 0 n = none
  sentinel : st.status s = .raw

/-- How a call changes level 0. -/
def LevelZero (st : State α) (op : Op α) (xs xs' : List α) : Prop :=
  match op with
  | .init _ _ => xs' = xs
  | .setWeight _ _ => xs' = xs
  | .insert n _ => ∃ light heavy, xs = light ++ heavy ∧ xs' = light ++ n :: heavy ∧
      (∀ a ∈ light, st.heap.weight a < st.heap.weight n) ∧
      ∀ a ∈ heavy.head?, st.heap.weight n ≤ st.heap.weight a
  | .remove n _ => (IsLinked st n → ∃ before behind, xs = before ++ n :: behind ∧ xs' = before ++ behind) ∧
      (¬ IsLinked st n → xs' = xs)

variable {s : α} {st st' : State α} {xs : List α} {ht : α → Nat}

omit [DecidableEq α] in
theorem Start.inv (hs : Start s st) : Inv s st [] (fun _ => 0) where
  threaded := Threaded.empty (hs.live s) (fun i => by simp [Heap.next, hs.sentinel, Node.zero]) _
  sorted := List.Pairwise.nil
  live := hs.live
  mem n := by simp [IsLinked, hs.raw]
  height n height h := by simp [hs.raw] at h
  fresh n h := by simp [hs.raw] at h
  sentinel := hs.raw s

omit [DecidableEq α] in
theorem Inv.not_mem (hI : Inv s st xs ht) {n : α} (hn : ¬ IsLinked st n) : n ∉ xs :=
  fun hm => hn ((hI.mem n).mp hm)

omit [DecidableEq α] in
theorem not_linked {n : α} (hn : st.status n = .fresh) : ¬ IsLinked st n := by
  rintro ⟨k, hk⟩
  rw [hn] at hk
  cases hk

theorem IsLinked.update_iff {n a : α} {x : Status} {h : Heap α} (hne : a ≠ n) :
    IsLinked ⟨h, Function.update st.status n x⟩ a ↔ IsLinked st a := by
  simp [IsLinked, Function.update_of_ne hne]

omit [DecidableEq α] in
theorem Inv.outside (hI : Inv s st xs ht) {n : α} {h : Heap α} (hns : n ≠ s) (hn : ¬ IsLinked st n)
    (hlive : h.live = st.heap.live) (hsame : ∀ a, a ≠ n → h.node a = st.heap.node a) :
    Threaded h s xs ht ∧ Sorted h xs := by
  have hmem : ∀ a ∈ s :: xs, a ≠ n := by
    rintro a ha rfl
    rcases List.mem_cons.mp ha with rfl | ha
    · exact hns rfl
    · exact hI.not_mem hn ha
  constructor
  · refine hI.threaded.congr (by rw [hlive]; exact hI.threaded.live) (fun a ha i => ?_) (fun a ha i => ?_)
    · simp only [Heap.next, hsame a (hmem a ha)]
    · simp only [Heap.prev, hsame a (hmem a (List.mem_cons_of_mem _ ha))]
  · refine hI.sorted.congr fun a ha => ?_
    simp only [Heap.weight, hsame a (hmem a (List.mem_cons_of_mem _ ha))]

/-! ## One call -/

theorem exec_init (hI : Inv s st xs ht) (n : α) (payload : Nat) (ha : Admissible s st (.init n payload)) :
    ∃ st', (∀ fuel, exec fuel s st (.init n payload) = some st') ∧ Inv s st' xs ht := by
  obtain ⟨hns, hn⟩ := ha
  let h := st.heap.set n { (Node.zero : Node α) with payload := payload }
  have hrun : skipListInitNode st.heap n payload = some h := skipListInitNode_spec (hI.live n) payload
  have hsame : ∀ a, a ≠ n → h.node a = st.heap.node a := by
    intro a ha
    simp [h, Heap.node_set, ha]
  obtain ⟨hT, hS⟩ := hI.outside (h := h) hns hn rfl hsame
  refine ⟨⟨h, Function.update st.status n .fresh⟩, fun fuel => by simp [exec, hrun], hT, hS, hI.live,
    ?_, ?_, ?_, ?_⟩
  · intro a
    by_cases han : a = n
    · subst han
      simpa [IsLinked] using hI.not_mem hn
    · rw [IsLinked.update_iff han]; exact hI.mem a
  · intro a height hst
    by_cases han : a = n
    · subst han; simp at hst
    · exact hI.height a height (by simpa [Function.update_of_ne han] using hst)
  · intro a hst
    by_cases han : a = n
    · subst han; simp [h, Heap.prev, Heap.node_set, Node.zero]
    · have := hI.fresh a (by simpa [Function.update_of_ne han] using hst)
      simpa only [Heap.prev, hsame a han] using this
  · simpa [Function.update_of_ne hns.symm] using hI.sentinel

theorem exec_setWeight (hI : Inv s st xs ht) {n : α} {w : Nat} (ha : Admissible s st (.setWeight n w)) :
    ∃ st', (∀ fuel, exec fuel s st (.setWeight n w) = some st') ∧ Inv s st' xs ht := by
  obtain ⟨hns, hn⟩ := ha
  have hrun : setSkipListWeight st.heap n w = some (st.heap.withWeight n w) :=
    Heap.setWeight_eq (hI.live n)
  obtain ⟨hT, hS⟩ := hI.outside (h := st.heap.withWeight n w) hns hn rfl
    (fun a ha => by simp [Heap.withWeight, Heap.node_set, ha])
  refine ⟨⟨st.heap.withWeight n w, st.status⟩, fun fuel => by simp [exec, hrun], hT, hS, hI.live,
    hI.mem, hI.height, ?_, hI.sentinel⟩
  intro a hst
  simpa using hI.fresh a hst

theorem exec_insert (hI : Inv s st xs ht) {n : α} {height : Nat} (ha : Admissible s st (.insert n height)) :
    ∃ st', (∀ fuel ≥ xs.length + 1, exec fuel s st (.insert n height) = some st') ∧
      Inv s st' (inserted st.heap n xs) (Function.update ht n (min height skipListMaxLevels)) := by
  obtain ⟨hn, hpos⟩ := ha
  have hunlinked : ¬ IsLinked st n := by
    rintro ⟨k, hk⟩
    rcases hn with hn | hn <;> simp [hn] at hk
  have hns : n ≠ s := by
    rintro rfl
    rcases hn with hn | hn <;> simp [hI.sentinel] at hn
  have hfresh : n ∉ s :: xs := by
    intro hm
    rcases List.mem_cons.mp hm with he | hm
    · exact hns he
    · exact hI.not_mem hunlinked hm
  obtain ⟨h', hrun, hT, hS, hr⟩ := skipListInsert_spec hI.threaded hI.sorted hfresh
    (hI.live n) hpos
  refine ⟨⟨h', Function.update st.status n (.linked height)⟩, ?_, hT, hS, ?_, ?_, ?_, ?_, ?_⟩
  · intro fuel hf
    simp [exec, hrun fuel hf]
  · rw [hr.live]; exact hI.live
  · intro a
    rw [(inserted_perm st.heap n xs).mem_iff, List.mem_cons]
    by_cases han : a = n
    · subst han; simp [IsLinked]
    · rw [IsLinked.update_iff han, ← hI.mem a]; simp [han]
  · intro a k hst
    by_cases han : a = n
    · subst han
      simp only [Function.update_self, Status.linked.injEq] at hst ⊢
      rw [hst]
    · rw [Function.update_of_ne han]
      exact hI.height a k (by simpa [Function.update_of_ne han] using hst)
  · intro a hst
    by_cases han : a = n
    · subst han; simp at hst
    · have hst : st.status a = .fresh := by simpa [Function.update_of_ne han] using hst
      have hout : a ∉ {a | a ∈ n :: s :: xs} := by
        simp only [Set.mem_ofPred_eq, List.mem_cons, not_or]
        refine ⟨han, ?_, hI.not_mem (not_linked hst)⟩
        rintro rfl
        simp [hI.sentinel] at hst
      have := hI.fresh a hst
      simpa only [Heap.prev, hr.other a hout] using this
  · simpa [Function.update_of_ne hns.symm] using hI.sentinel

theorem reweigh_spec (hI : Inv s st xs ht) (n : α) (w : Option Nat) :
    ∃ h, reweigh st.heap n w = some h ∧ h.live = st.heap.live ∧
      (∀ a i, h.next i a = st.heap.next i a ∧ h.prev i a = st.heap.prev i a) ∧
      ∀ a, a ≠ n → h.weight a = st.heap.weight a := by
  cases w with
  | none => exact ⟨st.heap, rfl, rfl, by simp, by simp⟩
  | some w =>
    refine ⟨_, Heap.setWeight_eq (hI.live n), rfl, by simp, ?_⟩
    intro a ha
    rw [Heap.weight_withWeight, if_neg ha]

theorem exec_remove_linked (hI : Inv s st xs ht) {n : α} {w : Option Nat} (hn : IsLinked st n) :
    ∃ st' before behind, (∀ fuel, exec fuel s st (.remove n w) = some st') ∧
      xs = before ++ n :: behind ∧ Inv s st' (before ++ behind) ht := by
  obtain ⟨before, behind, rfl⟩ := List.append_of_mem ((hI.mem n).mpr hn)
  obtain ⟨h, hrun, hlive, hlinks, hweight⟩ := reweigh_spec hI n w
  obtain ⟨h', hrem, hT', hS', hr⟩ := skipListRemove_reweighed hI.threaded hI.sorted hlive hlinks hweight
  have hns : s ≠ n := by
    rintro rfl
    have := hI.threaded.nodup
    simp at this
  have hmem : ∀ a, a ∈ before ++ behind ↔ a ∈ before ++ n :: behind ∧ a ≠ n := fun _ =>
    hI.threaded.mem_others
  refine ⟨⟨h', Function.update st.status n (st.status n).unlink⟩, before, behind, ?_, rfl, hT', hS', ?_,
    ?_, ?_, ?_, ?_⟩
  · intro fuel
    simp [exec, hrun, hrem]
  · rw [hr.live, hlive]; exact hI.live
  · intro a
    rw [hmem, hI.mem a]
    by_cases han : a = n
    · subst han
      obtain ⟨k, hk⟩ := hn
      simp [IsLinked, hk, Status.unlink]
    · rw [IsLinked.update_iff han]; simp [han]
  · intro a k hst
    by_cases han : a = n
    · subst han
      obtain ⟨k', hk'⟩ := hn
      simp [hk', Status.unlink] at hst
    · exact hI.height a k (by simpa [Function.update_of_ne han] using hst)
  · intro a hst
    by_cases han : a = n
    · subst han
      obtain ⟨k', hk'⟩ := hn
      simp [hk', Status.unlink] at hst
    · have hst : st.status a = .fresh := by simpa [Function.update_of_ne han] using hst
      have hout : a ∉ {a | a ∈ s :: (before ++ behind)} := by
        simp only [Set.mem_ofPred_eq, List.mem_cons, not_or]
        refine ⟨?_, fun hm => hI.not_mem (not_linked hst) ((hmem a).mp hm).1⟩
        rintro rfl
        simp [hI.sentinel] at hst
      have := hI.fresh a hst
      rw [← (hlinks a 0).2] at this
      simpa only [Heap.prev, hr.other a hout] using this
  · simpa [Function.update_of_ne hns] using hI.sentinel

theorem exec_remove_fresh (hI : Inv s st xs ht) {n : α} {w : Option Nat} (hn : st.status n = .fresh) :
    ∃ st', (∀ fuel, exec fuel s st (.remove n w) = some st') ∧ Inv s st' xs ht := by
  have hunlinked : ¬ IsLinked st n := not_linked hn
  obtain ⟨h, hrun, hlive, hlinks, hweight⟩ := reweigh_spec hI n w
  have hrem : skipListRemove h (some n) = some h :=
    skipListRemove_unlinked (by rw [hlive]; exact hI.live n) (by rw [(hlinks n 0).2]; exact hI.fresh n hn)
  have hst : Function.update st.status n (st.status n).unlink = st.status := by
    have : (st.status n).unlink = st.status n := by rw [hn]; rfl
    rw [this, Function.update_eq_self]
  refine ⟨⟨h, st.status⟩, ?_, ?_, ?_, ?_, hI.mem, hI.height, ?_, hI.sentinel⟩
  · intro fuel
    simp [exec, hrun, hrem, hst]
  · exact hI.threaded.congr (by rw [hlive]; exact hI.threaded.live) (fun a _ i => (hlinks a i).1) (fun a _ i => (hlinks a i).2)
  · refine hI.sorted.congr fun a ha => hweight a ?_
    rintro rfl
    exact hI.not_mem hunlinked ha
  · rw [hlive]; exact hI.live
  · intro a ha
    rw [(hlinks a 0).2]
    exact hI.fresh a ha

/-- Every admissible call returns, keeps the invariant and changes level 0 as it should. -/
theorem exec_spec (hI : Inv s st xs ht) {op : Op α} (ha : Admissible s st op) :
    ∃ st' xs' ht', (∀ fuel ≥ xs.length + 1, exec fuel s st op = some st') ∧ Inv s st' xs' ht' ∧
      LevelZero st op xs xs' := by
  cases op with
  | init n payload =>
    obtain ⟨st', hrun, hI'⟩ := exec_init hI n payload ha
    exact ⟨st', xs, ht, fun fuel _ => hrun fuel, hI', rfl⟩
  | setWeight n w =>
    obtain ⟨st', hrun, hI'⟩ := exec_setWeight (w := w) hI ha
    exact ⟨st', xs, ht, fun fuel _ => hrun fuel, hI', rfl⟩
  | insert n height =>
    obtain ⟨st', hrun, hI'⟩ := exec_insert hI ha
    refine ⟨st', _, _, hrun, hI', _, _, List.takeWhile_append_dropWhile.symm, rfl, light_takeWhile, ?_⟩
    exact fun a hm => hI.sorted.heavy a (List.mem_of_mem_head? hm)
  | remove n w =>
    by_cases hn : IsLinked st n
    · obtain ⟨st', before, behind, hrun, hxs, hI'⟩ := exec_remove_linked (w := w) hI hn
      exact ⟨st', _, _, fun fuel _ => hrun fuel, hI', fun _ => ⟨before, behind, hxs, rfl⟩,
        fun h => absurd hn h⟩
    · obtain ⟨st', hrun, hI'⟩ := exec_remove_fresh (w := w) hI (ha.resolve_left hn)
      exact ⟨st', xs, ht, fun fuel _ => hrun fuel, hI', fun h => absurd h hn, fun _ => rfl⟩

/-! ## Every run -/

theorem Step.unique {op : Op α} {st₁ st₂ : State α} (h1 : Step s st op st₁) (h2 : Step s st op st₂) :
    st₁ = st₂ := by
  obtain ⟨r1, h1⟩ := h1
  obtain ⟨r2, h2⟩ := h2
  have e1 := h1 (max r1 r2) (le_max_left ..)
  have e2 := h2 (max r1 r2) (le_max_right ..)
  exact Option.some.inj (e1.symm.trans e2)

theorem reachable_inv (hr : Reachable (client s) (Admissible s) st) : ∃ xs ht, Inv s st xs ht := by
  apply hr.invariant (P := fun st => ∃ xs ht, Inv s st xs ht)
  · intro st hs
    exact ⟨[], _, hs.inv⟩
  · rintro st op st' ⟨xs, ht, hI⟩ ha hstep
    obtain ⟨st₁, xs', ht', hrun, hI', -⟩ := exec_spec hI ha
    obtain rfl : st₁ = st' := Step.unique ⟨_, hrun⟩ hstep
    exact ⟨xs', ht', hI'⟩

theorem Step.status {op : Op α} (h : Step s st op st') : st'.status = op.remember st.status := by
  obtain ⟨rounds, hrun⟩ := h
  have hexec := hrun rounds le_rfl
  cases op with
  | init n payload =>
    obtain ⟨h', -, hst⟩ := Option.bind_eq_some_iff.mp hexec
    exact congrArg State.status (Option.some.inj hst).symm
  | setWeight n weight =>
    obtain ⟨h', -, hst⟩ := Option.bind_eq_some_iff.mp hexec
    rw [← Option.some.inj hst]
    rfl
  | insert n height =>
    obtain ⟨h', -, hst⟩ := Option.bind_eq_some_iff.mp hexec
    exact congrArg State.status (Option.some.inj hst).symm
  | remove n weight =>
    obtain ⟨h₁, -, hremove⟩ := Option.bind_eq_some_iff.mp hexec
    obtain ⟨h', -, hst⟩ := Option.bind_eq_some_iff.mp hremove
    exact congrArg State.status (Option.some.inj hst).symm

theorem client_step {op : Op α} (hr : Reachable (client s) (Admissible s) st) (ha : Admissible s st op) :
    ∃ st', Step s st op st' ∧ Reachable (client s) (Admissible s) st' ∧ st'.status = op.remember st.status := by
  obtain ⟨xs, ht, hI⟩ := reachable_inv hr
  obtain ⟨st', -, -, hrun, -, -⟩ := exec_spec hI ha
  have hstep : Step s st op st' := ⟨_, hrun⟩
  exact ⟨st', hstep, .step hr ha hstep, hstep.status⟩

/-- What the list looks like to its client. -/
structure WellFormed (s : α) (st : State α) : Prop where
  level : ∀ i < skipListMaxLevels, ∃ xs, Pointer.Chain (st.heap.next i) (st.heap.prev i) s xs ∧
    (s :: xs).Nodup ∧ Sorted st.heap xs ∧ ∀ n, n ∈ xs ↔ ∃ height, st.status n = .linked height ∧ i < height
  height : ∀ n height, st.status n = .linked height →
    skipListNodeHeight (st.heap.node n) = min height skipListMaxLevels

omit [DecidableEq α] in
theorem Inv.wellFormed (hI : Inv s st xs ht) : WellFormed s st where
  level i hi := by
    refine ⟨SkipList.level ht i xs, hI.threaded.chain i hi, nodup_level hI.threaded.nodup,
      hI.sorted.sublist List.filter_sublist, ?_⟩
    intro n
    rw [mem_level, hI.mem n]
    constructor
    · rintro ⟨⟨k, hk⟩, hlt⟩
      have := hI.height n k hk
      exact ⟨k, hk, by omega⟩
    · rintro ⟨k, hk, hlt⟩
      have := hI.height n k hk
      exact ⟨⟨k, hk⟩, by simp only [skipListMaxLevels_val] at *; omega⟩
  height n k hk := by
    rw [hI.threaded.nodeHeight ((hI.mem n).mpr ⟨k, hk⟩), hI.height n k hk]

/-- In every reachable state every level is a sorted doubly linked chain through exactly the nodes
that were inserted high enough, and every further call returns and edits level 0 in one place. -/
theorem skipList_refines (s : α) {st : State α} (hr : Reachable (client s) (Admissible s) st) :
    WellFormed s st ∧
      ∃ xs, Pointer.Chain (st.heap.next 0) (st.heap.prev 0) s xs ∧
        ∀ op, Admissible s st op → (∃ st', Step s st op st') ∧
          ∀ st', Step s st op st' → ∃ xs', Pointer.Chain (st'.heap.next 0) (st'.heap.prev 0) s xs' ∧
            LevelZero st op xs xs' := by
  obtain ⟨xs, ht, hI⟩ := reachable_inv hr
  refine ⟨hI.wellFormed, xs, hI.threaded.chain_zero, fun op ha => ?_⟩
  obtain ⟨st₁, xs', ht', hrun, hI', hzero⟩ := exec_spec hI ha
  refine ⟨⟨st₁, _, hrun⟩, fun st' hstep => ?_⟩
  obtain rfl : st₁ = st' := Step.unique ⟨_, hrun⟩ hstep
  exact ⟨xs', hI'.threaded.chain_zero, hzero⟩

/-! ## A run -/

def zeroState (α : Type) : State α where
  heap := { node := fun _ => Node.zero, live := fun _ => true }
  status _ := .raw

omit [DecidableEq α] in
theorem zeroState_start (s : α) : Start s (zeroState α) := ⟨rfl, fun _ => rfl, fun _ => rfl⟩

instance (st : State α) (n : α) : Decidable (IsLinked st n) :=
  match h : st.status n with
  | .linked height => .isTrue ⟨height, h⟩
  | .raw | .fresh | .removed => .isFalse (by simp [IsLinked, h])

instance (s : α) (st : State α) : ∀ op, Decidable (Admissible s st op)
  | .init n _ => inferInstanceAs (Decidable (n ≠ s ∧ ¬ IsLinked st n))
  | .setWeight n _ => inferInstanceAs (Decidable (n ≠ s ∧ ¬ IsLinked st n))
  | .insert n height => inferInstanceAs (Decidable ((st.status n = .fresh ∨ st.status n = .removed) ∧ 0 < height))
  | .remove n _ => inferInstanceAs (Decidable (IsLinked st n ∨ st.status n = .fresh))

/-- The calls as the client sees them: what it remembers says which of them are admissible. -/
def remembered (s : α) (status : α → Status) (op : Op α) : Option (α → Status) :=
  if Admissible s ⟨(zeroState α).heap, status⟩ op then some (op.remember status) else none

theorem client_steps {ops : List (Op α)} {status : α → Status} (hr : Reachable (client s) (Admissible s) st)
    (hops : ops.foldlM (remembered s) st.status = some status) :
    ∃ st', Steps (client s) (Admissible s) st ops st' ∧ st'.status = status := by
  induction ops generalizing st with
  | nil => exact ⟨st, .nil, Option.some.inj hops⟩
  | cons op ops ih =>
    obtain ⟨status₁, hfirst, hops⟩ := Option.bind_eq_some_iff.mp hops
    unfold remembered at hfirst
    split_ifs at hfirst with ha
    have ha : Admissible s st op := by cases op <;> exact ha
    obtain ⟨st₁, hstep, hr₁, hst₁⟩ := client_step hr ha
    obtain ⟨st', hsteps, hst'⟩ := ih hr₁ (by rw [hst₁, Option.some.inj hfirst]; exact hops)
    exact ⟨st', .cons ha hstep hsteps, hst'⟩

/-- Three nodes of the weights 5, 3 and 4 and the heights 1, 2 and 5. The first one goes again. -/
def visits : List (Op Nat) :=
  [.init 1 7, .setWeight 1 5, .insert 1 1, .init 2 8, .setWeight 2 3, .insert 2 2, .init 3 9, .setWeight 3 4,
    .insert 3 5, .remove 1 none]

theorem skipList_refines_visits :
    ∃ st, Steps (client (0 : Nat)) (Admissible 0) (zeroState Nat) visits st ∧
      st.status 1 = .removed ∧ st.status 2 = .linked 2 ∧ st.status 3 = .linked 5 ∧ WellFormed 0 st := by
  have hops : (visits.foldlM (remembered (0 : Nat)) fun _ => .raw).map
      (fun status => (status 1, status 2, status 3)) = some (.removed, .linked 2, .linked 5) := by decide +kernel
  obtain ⟨status, hops, hlast⟩ := Option.map_eq_some_iff.mp hops
  simp only [Prod.mk.injEq] at hlast
  have hinit : Reachable (client (0 : Nat)) (Admissible 0) (zeroState Nat) := .init (zeroState_start 0)
  obtain ⟨st, hsteps, rfl⟩ := client_steps hinit hops
  exact ⟨st, hsteps, hlast.1, hlast.2.1, hlast.2.2, (skipList_refines 0 (hinit.steps hsteps)).1⟩

end GenericOs.SkipList
