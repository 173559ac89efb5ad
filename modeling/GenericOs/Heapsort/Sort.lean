import Mathlib.Data.List.Nodup
import GenericOs.Library.Heap
import GenericOs.Heapsort.Code

/-!
# What `Heapsort` does to an array

`Heapify` is `Heap.siftDown` on the elements, and the two loops of `Heapsort` are
`Heap.passes` and `Heap.extract`. The first loop goes through the nodes from the top, so an
element that has far to rise may not get there, and the array may not get sorted.
-/

namespace GenericOs.Heapsort

open Bytes Heap

/-! ## Elements -/

def content (m : Memory 64) (trg : BitVec 64) (elementSize k : Nat) : List (BitVec 8) :=
  (List.range elementSize).map fun b => m.byte (element trg k elementSize + BitVec.ofNat 64 b)

def elements (m : Memory 64) (trg : BitVec 64) (elementSize count : Nat) : List (List (BitVec 8)) :=
  (List.range count).map (content m trg elementSize)

/-- No element comes before an earlier one. -/
def IsSorted (before : List (BitVec 8) → List (BitVec 8) → Bool) (m : Memory 64) (trg : BitVec 64)
    (elementSize count : Nat) : Prop :=
  ∀ j < count, ∀ i < j, before (content m trg elementSize j) (content m trg elementSize i) = false

/-- On the elements of the array, `cmp` compares their bytes by `before` and `swap` exchanges them,
whatever the elements are. -/
structure Works (cb : Callbacks) (m₀ : Memory 64) (trg : BitVec 64) (elementSize count : Nat) (p : BitVec 64)
    (before : List (BitVec 8) → List (BitVec 8) → Bool) : Prop where
  cmp : ∀ m, SameOutside (window trg (count * elementSize)) m₀ m → ∀ i < count, ∀ j < count,
    cb.cmp m (element trg i elementSize) (element trg j elementSize) p =
      some (before (content m trg elementSize i) (content m trg elementSize j))
  swap : ∀ m, SameOutside (window trg (count * elementSize)) m₀ m → ∀ i < count, ∀ j < count,
    ∃ m', cb.swap m (element trg i elementSize) (element trg j elementSize) = some m' ∧
      SameOutside (window trg (count * elementSize)) m m' ∧
      ∀ k < count, content m' trg elementSize k = content m trg elementSize (Equiv.swap i j k)

/-! ## The functions -/

section Refine

variable {cb : Callbacks} {m₀ m : Memory 64} {trg p : BitVec 64} {elementSize total count fuel i id : Nat}
  {before : List (BitVec 8) → List (BitVec 8) → Bool} {a : Nat → List (BitVec 8)}

/-- The elements of `m` are the first `total` ones of `a`, and the rest of the memory is as in `m₀`. -/
structure Holds (m₀ : Memory 64) (trg : BitVec 64) (elementSize total : Nat) (m : Memory 64)
    (a : Nat → List (BitVec 8)) : Prop where
  same : SameOutside (window trg (total * elementSize)) m₀ m
  elements : ∀ k < total, content m trg elementSize k = a k

theorem largerOf_spec (hcb : Works cb m₀ trg elementSize total p before) (h : Holds m₀ trg elementSize total m a)
    (hcount : count ≤ total) (hid : id < total) (child : Nat) :
    largerOf cb m trg elementSize count p id child =
      some (larger (fun x y => before x y = true) count a id child) := by
  unfold largerOf larger
  by_cases hchild : child < count
  · rw [if_pos hchild, hcb.cmp m h.same id hid child (by omega), h.elements id hid, h.elements child (by omega)]
    simp only [hchild, true_and]
    rfl
  · rw [if_neg hchild, if_neg fun hc => hchild hc.1]

theorem swap_spec (hcb : Works cb m₀ trg elementSize total p before) (h : Holds m₀ trg elementSize total m a)
    {j : Nat} (hi : i < total) (hj : j < total) :
    ∃ m', cb.swap m (element trg i elementSize) (element trg j elementSize) = some m' ∧
      Holds m₀ trg elementSize total m' (a ∘ Equiv.swap i j) := by
  obtain ⟨m', hm', hsame, hcontent⟩ := hcb.swap m h.same i hi j hj
  refine ⟨m', hm', h.same.trans hsame, ?_⟩
  intro k hk
  have hlt : Equiv.swap i j k < total := by
    rw [Equiv.swap_apply_def]
    split_ifs <;> omega
  rw [hcontent k hk, h.elements _ hlt, Function.comp_apply]

theorem word_children (hid : id < 2 ^ 63) : word (id * 2) = 2 * id ∧ word (2 * id + 1) = 2 * id + 1 := by
  unfold word
  omega

/-- The node that `Heapify` goes on with: the indices of the children wrap. -/
def wordPick (r : List (BitVec 8) → List (BitVec 8) → Prop) [DecidableRel r] (count : Nat) (a : Nat → List (BitVec 8))
    (id : Nat) : Nat :=
  larger r count a (larger r count a id (word (id * 2))) (word (word (id * 2) + 1))

theorem wordPick_eq (before : List (BitVec 8) → List (BitVec 8) → Bool) (count : Nat) (a : Nat → List (BitVec 8))
    (hid : id < 2 ^ 63) :
    wordPick (fun x y => before x y = true) count a id = pick (fun x y => before x y = true) count a id := by
  obtain ⟨hleft, hright⟩ := word_children hid
  unfold wordPick pick
  rw [hleft, hright]

theorem larger_lt (before : List (BitVec 8) → List (BitVec 8) → Bool) (a : Nat → List (BitVec 8)) (hid : id < total)
    (hcount : count ≤ total) (child : Nat) :
    larger (fun x y => before x y = true) count a id child < total := by
  unfold larger
  split_ifs <;> omega

theorem heapify_step (hcb : Works cb m₀ trg elementSize total p before) (h : Holds m₀ trg elementSize total m a)
    (hcount : count ≤ total) (hid : id < total) (fuel : Nat) :
    (wordPick (fun x y => before x y = true) count a id = id ∧ heapify cb trg elementSize p (fuel + 1) id count m = some m) ∨
      wordPick (fun x y => before x y = true) count a id ≠ id ∧
        ∃ m', Holds m₀ trg elementSize total m' (a ∘ Equiv.swap id (wordPick (fun x y => before x y = true) count a id)) ∧
          heapify cb trg elementSize p (fuel + 1) id count m = heapify cb trg elementSize p fuel
            (wordPick (fun x y => before x y = true) count a id) count m' := by
  have hleft := larger_lt before a hid hcount (word (id * 2))
  have hright := larger_lt before a hleft hcount (word (word (id * 2) + 1))
  have hcall : heapify cb trg elementSize p (fuel + 1) id count m =
      if wordPick (fun x y => before x y = true) count a id ≠ id then
        (cb.swap m (element trg id elementSize)
          (element trg (wordPick (fun x y => before x y = true) count a id) elementSize)).bind
            (heapify cb trg elementSize p fuel (wordPick (fun x y => before x y = true) count a id) count)
      else some m := by
    conv_lhs => unfold heapify
    dsimp only
    rw [largerOf_spec hcb h hcount hid]
    simp only [Option.bind_eq_bind, Option.bind_some]
    rw [largerOf_spec hcb h hcount hleft]
    rfl
  rw [hcall]
  split
  · next hgo =>
    obtain ⟨m', hm', h'⟩ := swap_spec hcb h hid hright
    refine Or.inr ⟨hgo, m', h', ?_⟩
    change Option.bind (cb.swap m _ (element trg (larger _ _ _ _ _) elementSize)) _ = _
    rw [hm']
    rfl
  · next hstop => exact Or.inl ⟨not_not.mp hstop, rfl⟩

/-- Where no index of the subtree wraps, `Heapify` returns. -/
theorem heapify_spec (hcb : Works cb m₀ trg elementSize total p before) (h : Holds m₀ trg elementSize total m a)
    (hcount : count ≤ total) (hid : id < total) (hwrap : ∀ j, Below id j → j < count ∨ j = id → j < 2 ^ 63)
    (hfuel : count - id < fuel) :
    ∃ m', heapify cb trg elementSize p fuel id count m = some m' ∧
      Holds m₀ trg elementSize total m' (siftDown (fun x y => before x y = true) count a id) := by
  induction fuel generalizing id m a with
  | zero => omega
  | succ fuel ih =>
    have hpick := wordPick_eq before count a (hwrap id Below.self (Or.inr rfl))
    unfold siftDown
    rw [← hpick]
    rcases heapify_step hcb h hcount hid fuel with ⟨hstop, hcall⟩ | ⟨hgo, m', h', hcall⟩
    · rw [if_pos hstop]
      exact ⟨m, hcall, h⟩
    · rw [if_neg hgo, hcall]
      rw [hpick] at hgo h' ⊢
      obtain ⟨hlt, hn, hhalf⟩ := (pick_cases count a id).resolve_left hgo
      have hbelow : Below id (pick (fun x y => before x y = true) count a id) :=
        Below.child (by omega) (by rw [hhalf]; exact Below.self)
      apply ih h' (by omega) _ (by omega)
      intro j hj hjc
      exact hwrap j (hbelow.trans hj) (Or.inl (by omega))

theorem build_run {P : Nat → Memory 64 → Prop} {k : Nat} (hstart : P 0 m)
    (hstep : ∀ i < k, ∀ m, P i m → ∃ m', heapify cb trg elementSize p fuel i total m = some m' ∧ P (i + 1) m') :
    ∃ m', (List.range k).foldlM (fun m i => heapify cb trg elementSize p fuel i total m) m = some m' ∧ P k m' := by
  induction k with
  | zero => exact ⟨m, rfl, hstart⟩
  | succ k ih =>
    obtain ⟨m', hm', h'⟩ := ih fun i hi => hstep i (Nat.lt_succ_of_lt hi)
    obtain ⟨m'', hm'', h''⟩ := hstep k (Nat.lt_succ_self k) m' h'
    refine ⟨m'', ?_, h''⟩
    rw [List.range_succ, List.foldlM_append, hm']
    change (heapify cb trg elementSize p fuel k total m').bind _ = _
    rw [hm'']
    rfl

theorem extractLoop_run {P : Nat → Memory 64 → Prop} {rounds : Nat} (hstart : P rounds m)
    (hstep : ∀ i < rounds, ∀ m, P (i + 1) m → ∃ m' m'',
      cb.swap m (element trg 0 elementSize) (element trg i elementSize) = some m' ∧
        heapify cb trg elementSize p fuel 0 i m' = some m'' ∧ P i m'') :
    ∃ m', extractLoop cb trg elementSize p fuel rounds m = some m' ∧ P 0 m' := by
  induction rounds generalizing m with
  | zero => exact ⟨m, rfl, hstart⟩
  | succ i ih =>
    have htrg : element trg 0 elementSize = trg := by
      unfold element
      rw [Nat.zero_mul, BitVec.add_zero]
    obtain ⟨m', m'', hm', hm'', h''⟩ := hstep i (Nat.lt_succ_self i) m hstart
    rw [htrg] at hm'
    unfold extractLoop
    change ∃ m₁, (cb.swap m trg (element trg i elementSize)).bind _ = some m₁ ∧ _
    rw [hm', Option.bind_some]
    change ∃ m₁, (heapify cb trg elementSize p fuel 0 i m').bind _ = some m₁ ∧ _
    rw [hm'', Option.bind_some]
    exact ih h'' fun j hj => hstep j (Nat.lt_succ_of_lt hj)

theorem build_spec (hcb : Works cb m₀ trg elementSize total p before) (h : Holds m₀ trg elementSize total m a)
    (htotal : total ≤ 2 ^ 63) (hfuel : total < fuel) {k : Nat} (hk : k ≤ total / 2) :
    ∃ m', (List.range k).foldlM (fun m i => heapify cb trg elementSize p fuel i total m) m = some m' ∧
      Holds m₀ trg elementSize total m' (passes (fun x y => before x y = true) total a k) := by
  apply build_run (P := fun k m => Holds m₀ trg elementSize total m (passes (fun x y => before x y = true) total a k)) h
  intro i hi m' h'
  exact heapify_spec hcb h' (Nat.le_refl total) (show i < total by omega) (fun j _ hj => by omega)
    (show total - i < fuel by omega)

theorem extractLoop_spec (hcb : Works cb m₀ trg elementSize total p before) (h : Holds m₀ trg elementSize total m a)
    (htotal : total ≤ 2 ^ 63) (hfuel : total < fuel) {rounds : Nat} (hrounds : rounds ≤ total) :
    ∃ m', extractLoop cb trg elementSize p fuel rounds m = some m' ∧
      Holds m₀ trg elementSize total m' (extract (fun x y => before x y = true) rounds a) := by
  -- What is left to do for the elements `b` leads to the same as all that is to do for `a`.
  have hrun : ∃ m', extractLoop cb trg elementSize p fuel rounds m = some m' ∧
      ∃ b, Holds m₀ trg elementSize total m' b ∧
        extract (fun x y => before x y = true) 0 b = extract (fun x y => before x y = true) rounds a := by
    apply extractLoop_run (P := fun i m => ∃ b, Holds m₀ trg elementSize total m b ∧
      extract (fun x y => before x y = true) i b = extract (fun x y => before x y = true) rounds a) ⟨a, h, rfl⟩
    rintro i hi m ⟨b, h, hb⟩
    obtain ⟨m', hm', h'⟩ := swap_spec hcb h (i := 0) (j := i) (by omega) (by omega)
    obtain ⟨m'', hm'', h''⟩ := heapify_spec hcb h' (show i ≤ total by omega) (show 0 < total by omega)
      (fun j _ hj => by omega) (show i - 0 < fuel by omega)
    exact ⟨m', m'', hm', hm'', _, h'', hb⟩
  obtain ⟨m', hm', b, h', hb⟩ := hrun
  refine ⟨m', hm', ?_⟩
  rw [← hb]
  exact h'

theorem extractRounds_eq (htotal : total ≤ 2 ^ 63) : extractRounds total = total := by
  unfold extractRounds word
  split_ifs <;> omega

end Refine

/-! ## `Heapsort` -/

section Result

variable {cb : Callbacks} {m : Memory 64} {trg elementSize length p : BitVec 64} {fuel : Nat}
  {before : List (BitVec 8) → List (BitVec 8) → Bool}

theorem elements_perm {m m' : Memory 64} {trg : BitVec 64} {elementSize total : Nat} {σ : Equiv.Perm Nat}
    (hfix : ∀ j, total ≤ j → σ j = j)
    (h : ∀ k < total, content m' trg elementSize k = content m trg elementSize (σ k)) :
    (elements m' trg elementSize total).Perm (elements m trg elementSize total) := by
  have hindices : ((List.range total).map σ).Perm (List.range total) := by
    rw [List.perm_ext_iff_of_nodup (List.Nodup.map σ.injective List.nodup_range) List.nodup_range]
    intro j
    rw [List.mem_map, List.mem_range]
    constructor
    · rintro ⟨k, hk, rfl⟩
      exact lt_of_fixed hfix (List.mem_range.mp hk)
    · intro hj
      have hfix' : ∀ l, total ≤ l → σ.symm l = l := fun l hl => by rw [Equiv.symm_apply_eq, hfix l hl]
      exact ⟨σ.symm j, List.mem_range.mpr (lt_of_fixed hfix' hj), Equiv.apply_symm_apply σ j⟩
  have helements : elements m' trg elementSize total = ((List.range total).map σ).map (content m trg elementSize) := by
    unfold elements
    rw [List.map_map]
    exact List.map_congr_left fun k hk => h k (List.mem_range.mp hk)
  rw [helements]
  exact hindices.map _

/-- `Heapsort` returns a permutation of the array. The array gets sorted if it is shallow, and only if the
greatest element is in reach of the root. -/
theorem heapsort_spec (hsize : elementSize ≠ 0) (hcount : (length / elementSize).toNat ≤ 2 ^ 63)
    (hfuel : (length / elementSize).toNat < fuel)
    (hcb : Works cb m trg elementSize.toNat (length / elementSize).toNat p before)
    (horder : IsStrictWeakOrder _ fun x y => before x y = true) :
    ∃ m', heapsort cb fuel trg elementSize length p m = some m' ∧
      (elements m' trg elementSize.toNat (length / elementSize).toNat).Perm
        (elements m trg elementSize.toNat (length / elementSize).toNat) ∧
      (Shallow (fun x y => before x y = true) (length / elementSize).toNat (content m trg elementSize.toNat) →
        IsSorted before m' trg elementSize.toNat (length / elementSize).toNat) ∧
      (0 < (length / elementSize).toNat / 2 → IsSorted before m' trg elementSize.toNat (length / elementSize).toNat →
        InReach (fun x y => before x y = true) (length / elementSize).toNat (content m trg elementSize.toNat) 0) := by
  generalize htotal : (length / elementSize).toNat = total at *
  have hstart : Holds m trg elementSize.toNat total m (content m trg elementSize.toNat) :=
    ⟨SameOutside.refl _ _, fun _ _ => rfl⟩
  obtain ⟨m₁, hm₁, h₁⟩ := build_spec hcb hstart hcount hfuel (Nat.le_refl (total / 2))
  obtain ⟨m₂, hm₂, h₂⟩ := extractLoop_spec hcb h₁ hcount hfuel (Nat.le_refl total)
  obtain ⟨σ, hσ, hfix⟩ := sort_perm (fun x y => before x y = true) total (total / 2) (content m trg elementSize.toNat)
  refine ⟨m₂, ?_, ?_, ?_, ?_⟩
  · unfold heapsort
    rw [if_neg hsize, htotal]
    change Option.bind (List.foldlM _ m (List.range (total / 2))) _ = _
    rw [hm₁, Option.bind_some, extractRounds_eq hcount, hm₂]
  · apply elements_perm hfix
    intro k hk
    rw [h₂.elements k hk, hσ, Function.comp_apply]
  · intro hshallow j hj i hij
    rw [h₂.elements j hj, h₂.elements i (by omega)]
    exact Bool.eq_false_iff.mpr (extract_sorted hshallow.buildable hij hj)
  · intro hhalf hsorted
    apply inReach_of_sorted hhalf
    intro j hj i hij
    have := hsorted j hj i hij
    rw [h₂.elements j hj, h₂.elements i (by omega)] at this
    exact Bool.eq_false_iff.mp this

end Result

/-! ## An array of bytes -/

/-- `*a < *b` for bytes. -/
def byteBefore (x y : List (BitVec 8)) : Bool := (x.headD 0).toNat < (y.headD 0).toNat

/-- The callbacks for an array of bytes in increasing order. -/
def byteCallbacks : Callbacks where
  cmp m a b _ := some ((m.byte a).toNat < (m.byte b).toNat)
  swap m a b := some { m with byte := fun x => if x = a then m.byte b else if x = b then m.byte a else m.byte x }

theorem byteBefore_strictWeak : IsStrictWeakOrder _ fun x y => byteBefore x y = true where
  irrefl x := by simp [byteBefore]
  trans x y z := by
    simp only [byteBefore, decide_eq_true_eq]
    exact Nat.lt_trans
  incomp_trans x y z := by
    simp only [byteBefore, decide_eq_true_eq]
    omega

theorem content_byte (m : Memory 64) (trg : BitVec 64) (k : Nat) :
    content m trg 1 k = [m.byte (trg + BitVec.ofNat 64 k)] := by
  unfold content element
  rw [Nat.mul_one]
  simp

theorem byteCallbacks_works (m₀ : Memory 64) (trg p : BitVec 64) {count : Nat} (hcount : count ≤ 2 ^ 64) :
    Works byteCallbacks m₀ trg 1 count p byteBefore := by
  have helement : ∀ k, element trg k 1 = trg + BitVec.ofNat 64 k := fun k => by
    unfold element
    rw [Nat.mul_one]
  constructor
  · intro m _ i _ j _
    rw [content_byte, content_byte, helement, helement]
    rfl
  · intro m _ i hi j hj
    refine ⟨_, rfl, ⟨?_, fun _ _ => rfl⟩, ?_⟩
    · intro x hx
      have hin : ∀ k < count, x ≠ element trg k 1 := by
        intro k hk heq
        rw [heq, helement] at hx
        exact hx (mem_window_add (by omega))
      dsimp only
      rw [if_neg (hin i hi), if_neg (hin j hj)]
    · intro k hk
      have hinj : ∀ l < count, ∀ l' < count, trg + BitVec.ofNat 64 l = trg + BitVec.ofNat 64 l' ↔ l = l' := by
        intro l hl l' hl'
        rw [BitVec.add_right_inj]
        bv_omega
      rw [content_byte, content_byte, helement, helement, Equiv.swap_apply_def]
      simp only [hinj k hk i hi, hinj k hk j hj]
      split_ifs <;> rfl

/-- The bytes at 4096 and after it. -/
def byteMemory (bytes : List (BitVec 8)) : Memory 64 where
  byte x := bytes.getD (x - 4096).toNat 0
  written _ := false

/-- The greatest element is below the root, and the next ones below it. -/
theorem shallow_bytes : Shallow (fun x y => byteBefore x y = true) 5 (content (byteMemory [2, 5, 3, 4, 1]) 4096 1) := by
  constructor
  · intro j hj _
    refine ⟨1, by omega, by decide, ?_⟩
    rcases (by omega : j = 0 ∨ j = 1 ∨ j = 2 ∨ j = 3 ∨ j = 4) with rfl | rfl | rfl | rfl | rfl <;> decide
  · intro i j _ hbelow h4 hj
    obtain rfl : j = 4 := by omega
    obtain rfl : i = 0 := Nat.le_zero.mp hbelow.le
    decide

theorem heapsort_spec_bytes :
    ∃ m', heapsort byteCallbacks 6 4096 1 5 0 (byteMemory [2, 5, 3, 4, 1]) = some m' ∧
      (elements m' 4096 1 5).Perm (elements (byteMemory [2, 5, 3, 4, 1]) 4096 1 5) ∧ IsSorted byteBefore m' 4096 1 5 := by
  obtain ⟨m', hm', hperm, hsorted, -⟩ := @heapsort_spec byteCallbacks (byteMemory [2, 5, 3, 4, 1]) 4096 1 5 0 6
    byteBefore (by decide) (by decide) (by decide) (byteCallbacks_works _ _ _ (by decide)) byteBefore_strictWeak
  exact ⟨m', hm', hperm, hsorted shallow_bytes⟩

/-- The memory after sorting the bytes 1, 2, 3. -/
def failedBytes : Memory 64 :=
  (heapsort byteCallbacks 4 4096 1 3 0 (byteMemory [1, 2, 3])).getD (byteMemory [])

/-- The bytes 1, 2, 3 come out as 1, 3, 2. -/
theorem heapsort_fails :
    Works byteCallbacks (byteMemory [1, 2, 3]) 4096 1 3 0 byteBefore ∧
      heapsort byteCallbacks 4 4096 1 3 0 (byteMemory [1, 2, 3]) = some failedBytes ∧
      elements failedBytes 4096 1 3 = [[1], [3], [2]] ∧ ¬ IsSorted byteBefore failedBytes 4096 1 3 := by
  have helements : elements failedBytes 4096 1 3 = [[1], [3], [2]] := by decide +kernel
  refine ⟨byteCallbacks_works _ _ _ (by decide), rfl, helements, ?_⟩
  intro hsorted
  exact absurd (hsorted 2 (by decide) 1 (by decide)) (by decide +kernel)

end GenericOs.Heapsort
