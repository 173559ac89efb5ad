import Mathlib.Data.Nat.Log
import GenericOs.Heapsort.Safety

/-!
# How deep `Heapify` calls itself

A call at a node goes on at one of its children, so the index doubles. From node 0 it can go
to node 1 first. Whatever `cmp` answers the calls do not nest deeper than that, and there is
a `cmp` for which they do.
-/

namespace GenericOs.Heapsort

open Bytes

/-- `fuel` nested calls of `Heapify` are enough for every array of `length` bytes, whatever `cmp` answers. -/
def Enough (fuel : Nat) (elementSize length : BitVec 64) : Prop :=
  ∀ (cb : Callbacks) (m : Memory 64) (trg p : BitVec 64), Answers cb trg elementSize.toNat length.toNat p →
    ∃ m', heapsort cb fuel trg elementSize length p m = some m'

/-! ## As deep as this -/

section Returns

variable {cb : Callbacks} {trg p : BitVec 64} {elementSize length count fuel id : Nat}

/-- A call returns, or it goes on at a child. -/
theorem heapify_next (hcb : Answers cb trg elementSize length p) (hlength : length / elementSize ≤ 2 ^ 63)
    (hcount : count ≤ length / elementSize) (hid : id < length / elementSize) (m : Memory 64) :
    (∀ fuel, heapify cb trg elementSize p (fuel + 1) id count m = some m) ∨
      ∃ child m', (child = 2 * id ∨ child = 2 * id + 1) ∧ child ≠ id ∧ child < count ∧ ∀ fuel,
        heapify cb trg elementSize p (fuel + 1) id count m = heapify cb trg elementSize p fuel child count m' := by
  obtain ⟨hleft, hright⟩ := word_children (show id < 2 ^ 63 by omega)
  obtain ⟨l, hl, hlcases⟩ := largerOf_answers hcb hcount hid (2 * id) m
  obtain ⟨k, hk, hkcases⟩ := largerOf_answers hcb hcount (show l < length / elementSize by omega) (2 * id + 1) m
  by_cases hgo : k = id
  · refine Or.inl fun fuel => ?_
    unfold heapify
    simp only [hleft, hright, hl, hk, Option.bind_eq_bind, Option.bind_some]
    exact if_neg (not_not.mpr hgo)
  · obtain ⟨m', hm', -⟩ := hcb.exchange hid (show k < length / elementSize by omega) m
    refine Or.inr ⟨k, m', by omega, hgo, by omega, fun fuel => ?_⟩
    conv_lhs => unfold heapify
    simp only [hleft, hright, hl, hk, Option.bind_eq_bind, Option.bind_some]
    rw [if_pos hgo, hm', Option.bind_some]

theorem heapify_below (hcb : Answers cb trg elementSize length p) (hlength : length / elementSize ≤ 2 ^ 63)
    (hcount : count ≤ length / elementSize) (hid : id < length / elementSize) (hfuel : count ≤ 2 * id * 2 ^ fuel)
    (m : Memory 64) : ∃ m', heapify cb trg elementSize p (fuel + 1) id count m = some m' := by
  induction fuel generalizing id m with
  | zero =>
    rcases heapify_next hcb hlength hcount hid m with hstop | ⟨child, m', hchild, -, hlt, -⟩
    · exact ⟨m, hstop 0⟩
    · omega
  | succ fuel ih =>
    rcases heapify_next hcb hlength hcount hid m with hstop | ⟨child, m', hchild, -, hlt, hcall⟩
    · exact ⟨m, hstop _⟩
    · rw [hcall]
      refine ih (by omega) ?_ m'
      calc count ≤ 2 * id * 2 ^ (fuel + 1) := hfuel
        _ = 2 * (2 * id) * 2 ^ fuel := by rw [Nat.pow_succ', ← Nat.mul_assoc, Nat.mul_comm (2 * id) 2]
        _ ≤ 2 * child * 2 ^ fuel := Nat.mul_le_mul_right _ (by omega)

theorem heapify_enough (hcb : Answers cb trg elementSize length p) (hlength : length / elementSize ≤ 2 ^ 63)
    (hcount : count ≤ length / elementSize) (hid : id < length / elementSize) (hfuel : count ≤ 2 ^ fuel)
    (m : Memory 64) : ∃ m', heapify cb trg elementSize p (fuel + 1) id count m = some m' := by
  rcases Nat.eq_zero_or_pos id with rfl | hpos
  · rcases heapify_next hcb hlength hcount hid m with hstop | ⟨child, m', hchild, hne, hlt, hcall⟩
    · exact ⟨m, hstop fuel⟩
    · obtain rfl : child = 1 := by omega
      cases fuel with
      | zero => omega
      | succ fuel =>
        rw [hcall]
        exact heapify_below hcb hlength hcount (by omega) (by rwa [Nat.mul_one, ← Nat.pow_succ']) m'
  · refine heapify_below hcb hlength hcount hid (hfuel.trans ?_) m
    exact Nat.le_mul_of_pos_left _ (by omega)

end Returns

section Enough

variable {elementSize length : BitVec 64} {fuel : Nat}

theorem enough_of_le (hsize : elementSize ≠ 0) (hsmall : (length / elementSize).toNat ≤ 2 ^ 63)
    (hfuel : (length / elementSize).toNat ≤ 2 ^ fuel) : Enough (fuel + 1) elementSize length := by
  intro cb m trg p hcb
  have hcount : (length / elementSize).toNat = length.toNat / elementSize.toNat := BitVec.toNat_udiv
  rw [hcount] at hsmall hfuel
  have hbuild : ∃ m₁, (List.range (length.toNat / elementSize.toNat / 2)).foldlM
      (fun m i => heapify cb trg elementSize.toNat p (fuel + 1) i (length.toNat / elementSize.toNat) m) m = some m₁ ∧
        True := by
    apply build_run (P := fun _ _ => True) trivial
    intro i hi m _
    obtain ⟨m', hm'⟩ := heapify_enough hcb hsmall (Nat.le_refl _)
      (show i < length.toNat / elementSize.toNat by omega) hfuel m
    exact ⟨m', hm', trivial⟩
  obtain ⟨m₁, hm₁, -⟩ := hbuild
  have hextract : ∃ m₂, extractLoop cb trg elementSize.toNat p (fuel + 1) (length.toNat / elementSize.toNat) m₁ =
      some m₂ ∧ True := by
    apply extractLoop_run (P := fun _ _ => True) trivial
    intro i hi m _
    have hfirst : 0 < length.toNat / elementSize.toNat := by omega
    obtain ⟨m', hm', -⟩ := hcb.exchange hfirst hi m
    obtain ⟨m'', hm''⟩ := heapify_enough hcb hsmall (Nat.le_of_lt hi) hfirst (hi.le.trans hfuel) m'
    exact ⟨m', m'', hm', hm'', trivial⟩
  obtain ⟨m₂, hm₂, -⟩ := hextract
  refine ⟨m₂, ?_⟩
  unfold heapsort
  rw [if_neg hsize]
  dsimp only
  rw [hcount, hm₁, extractRounds_eq hsmall]
  exact hm₂

end Enough

/-! ## No less -/

/-- The elements at `a` and at `b` with their bytes exchanged. -/
def swapElements (elementSize : Nat) (m : Memory 64) (a b : BitVec 64) : Memory 64 :=
  (m.copy a b elementSize).put b elementSize fun k => m.byte (a + BitVec.ofNat 64 k)

/-- At 0, `cmp` puts every element before the left children and before node 1. -/
def leftward (elementSize : Nat) : Callbacks where
  cmp _ _ b _ := some (b.toNat / elementSize = 1 ∨ b.toNat / elementSize % 2 = 0)
  swap m a b := some (swapElements elementSize m a b)

section Swap

variable {m : Memory 64} {trg p : BitVec 64} {elementSize length d n i j k : Nat}

theorem element_fits (hi : i < length / elementSize) : i * elementSize + elementSize ≤ length := by
  have hpos : 0 < elementSize := Nat.pos_of_ne_zero (by rintro rfl; simp at hi)
  rw [← Nat.succ_mul]
  exact (Nat.le_div_iff_mul_le hpos).mp hi

/-- A store to an element keeps what is in front of it and behind it. -/
theorem put_element_agreeOn {f : Nat → BitVec 8} (hlength : length ≤ 2 ^ 64) (hi : i < length / elementSize)
    (hd : d + n ≤ length) (hapart : d + n ≤ i * elementSize ∨ i * elementSize + elementSize ≤ d) :
    AgreeOn (window (trg + BitVec.ofNat 64 d) n) m (m.put (element trg i elementSize) elementSize f) := by
  have hfits := element_fits hi
  exact put_sameOutside.agreeOn (window_apart (by omega) (by omega) hapart.symm)

theorem put_element_other {f : Nat → BitVec 8} (hlength : length ≤ 2 ^ 64) (hi : i < length / elementSize)
    (hk : k < length / elementSize) (hne : k ≠ i) {b : Nat} (hb : b < elementSize) :
    (m.put (element trg i elementSize) elementSize f).byte (element trg k elementSize + BitVec.ofNat 64 b) =
      m.byte (element trg k elementSize + BitVec.ofNat 64 b) := by
  refine put_element_agreeOn hlength hi (element_fits hk) ?_ _ (mem_window_add hb)
  rw [← Nat.succ_mul, ← Nat.succ_mul]
  rcases Nat.lt_or_gt_of_ne hne with hlt | hgt
  · exact Or.inl (Nat.mul_le_mul_right _ hlt)
  · exact Or.inr (Nat.mul_le_mul_right _ hgt)

theorem swapElements_content (hlength : length ≤ 2 ^ 64) (hi : i < length / elementSize) (hj : j < length / elementSize)
    (hk : k < length / elementSize) :
    content (swapElements elementSize m (element trg i elementSize) (element trg j elementSize)) trg elementSize k =
      content m trg elementSize (Equiv.swap i j k) := by
  have hsize : elementSize ≤ 2 ^ 64 := by
    have := element_fits hi
    omega
  apply List.map_congr_left
  intro b hb
  have hb := List.mem_range.mp hb
  unfold swapElements
  rw [Equiv.swap_apply_def]
  by_cases hkj : k = j
  · subst hkj
    rw [put_byte hb hsize]
    split_ifs with hki hself
    · rw [hki]
    · rfl
    · exact absurd rfl hself
  · rw [put_element_other hlength hj hk hkj hb]
    by_cases hki : k = i
    · subst hki
      rw [if_pos rfl]
      exact put_byte hb hsize
    · rw [if_neg hki, if_neg hkj]
      exact put_element_other hlength hi hk hki hb

theorem swapElements_rest (hlength : length ≤ 2 ^ 64) (hi : i < length / elementSize) (hj : j < length / elementSize) :
    rest (swapElements elementSize m (element trg i elementSize) (element trg j elementSize)) trg elementSize length =
      rest m trg elementSize length := by
  have hend : length / elementSize * elementSize + length % elementSize ≤ length := Nat.le_of_eq (Nat.div_add_mod' ..)
  have hbehind : ∀ l < length / elementSize, l * elementSize + elementSize ≤ length / elementSize * elementSize := by
    intro l hl
    rw [← Nat.succ_mul]
    exact Nat.mul_le_mul_right _ hl
  have hagree : AgreeOn (window (element trg (length / elementSize) elementSize) (length % elementSize)) m
      (swapElements elementSize m (element trg i elementSize) (element trg j elementSize)) :=
    (put_element_agreeOn hlength hi hend (Or.inr (hbehind i hi))).trans
      (put_element_agreeOn hlength hj hend (Or.inr (hbehind j hj)))
  apply List.map_congr_left
  intro b hb
  exact hagree _ (mem_window_add (List.mem_range.mp hb))

theorem leftward_answers (hlength : length ≤ 2 ^ 64) : Answers (leftward elementSize) trg elementSize length p where
  cmp _ _ _ _ _ := ⟨_, rfl⟩
  swap _ _ hi _ hj := ⟨_, rfl, fun _ hk => swapElements_content hlength hi hj hk, swapElements_rest hlength hi hj⟩

end Swap

section Leftward

variable {m : Memory 64} {p : BitVec 64} {elementSize length count fuel id child largest : Nat}

theorem leftward_larger (hlength : length < 2 ^ 64) (hcount : count ≤ length / elementSize) (m : Memory 64) :
    largerOf (leftward elementSize) m 0#64 elementSize count p largest child =
      some (if child < count ∧ (child = 1 ∨ child % 2 = 0) then child else largest) := by
  unfold largerOf
  by_cases hchild : child < count
  · have hfits := element_fits (hchild.trans_le hcount)
    have hpos : 0 < elementSize := Nat.pos_of_ne_zero (by rintro rfl; simp at hcount; omega)
    have hat : (element 0#64 child elementSize).toNat / elementSize = child := by
      unfold element
      rw [BitVec.zero_add, BitVec.toNat_ofNat, Nat.mod_eq_of_lt (by omega), Nat.mul_div_cancel _ hpos]
    simp [hchild, leftward, hat]
  · simp [hchild]

/-- From node 0 it goes on at node 1, and from the others at the left child. -/
theorem leftward_next (hlength : length < 2 ^ 64) (hsmall : length / elementSize ≤ 2 ^ 63)
    (hcount : count ≤ length / elementSize) (hchild : child < count)
    (hkind : id = 0 ∧ child = 1 ∨ 0 < id ∧ child = 2 * id) (fuel : Nat) (m : Memory 64) :
    ∃ m', heapify (leftward elementSize) 0#64 elementSize p (fuel + 1) id count m =
      heapify (leftward elementSize) 0#64 elementSize p fuel child count m' := by
  obtain ⟨hleft, hright⟩ := word_children (show id < 2 ^ 63 by omega)
  refine ⟨swapElements elementSize m (element 0#64 id elementSize) (element 0#64 child elementSize), ?_⟩
  conv_lhs => unfold heapify
  simp only [hleft, hright, leftward_larger hlength hcount, Option.bind_eq_bind, Option.bind_some]
  rcases hkind with ⟨rfl, rfl⟩ | ⟨hpos, rfl⟩
  · simp [hchild, leftward]
  · have hodd : ¬ (2 * id + 1 < count ∧ (2 * id + 1 = 1 ∨ (2 * id + 1) % 2 = 0)) := by omega
    have heven : 2 * id < count ∧ (2 * id = 1 ∨ 2 * id % 2 = 0) := by omega
    have hne : 2 * id ≠ id := by omega
    rw [if_neg hodd, if_pos heven, if_pos hne]
    rfl

theorem leftward_below (hlength : length < 2 ^ 64) (hsmall : length / elementSize ≤ 2 ^ 63)
    (hcount : count ≤ length / elementSize) (hid : 0 < id) (hdeep : id * 2 ^ fuel < count) (m : Memory 64) :
    heapify (leftward elementSize) 0#64 elementSize p fuel id count m = none := by
  induction fuel generalizing id m with
  | zero => rfl
  | succ fuel ih =>
    have hnext : 2 * id * 2 ^ fuel < count := by rwa [Nat.pow_succ', ← Nat.mul_assoc, Nat.mul_comm id 2] at hdeep
    have hchild : 2 * id < count := Nat.lt_of_le_of_lt (Nat.le_mul_of_pos_right _ (Nat.two_pow_pos fuel)) hnext
    obtain ⟨m', hm'⟩ := leftward_next hlength hsmall hcount hchild (Or.inr ⟨hid, rfl⟩) fuel m
    rw [hm']
    exact ih (by omega) hnext m'

theorem leftward_zero (hlength : length < 2 ^ 64) (hsmall : length / elementSize ≤ 2 ^ 63)
    (hcount : count ≤ length / elementSize) (hdeep : fuel ≤ Nat.clog 2 count) (m : Memory 64) :
    heapify (leftward elementSize) 0#64 elementSize p fuel 0 count m = none := by
  cases fuel with
  | zero => rfl
  | succ fuel =>
    have hlt : 2 ^ fuel < count := (Nat.lt_clog_iff_pow_lt (by decide)).mp hdeep
    have hone := Nat.one_le_two_pow (n := fuel)
    obtain ⟨m', hm'⟩ := leftward_next hlength hsmall hcount (show 1 < count by omega) (Or.inl ⟨rfl, rfl⟩) fuel m
    rw [hm']
    exact leftward_below hlength hsmall hcount (by decide) (by rwa [Nat.one_mul]) m'

end Leftward

/-- One call more than the binary logarithm of the number of elements, rounded up. -/
theorem enough_iff_clog {elementSize length : BitVec 64} {fuel : Nat} (hsize : elementSize ≠ 0)
    (hpos : 0 < (length / elementSize).toNat) (hsmall : (length / elementSize).toNat ≤ 2 ^ 63) :
    Enough fuel elementSize length ↔ Nat.clog 2 (length / elementSize).toNat < fuel := by
  constructor
  · intro henough
    by_contra hfew
    have hfew := Nat.le_of_not_lt hfew
    have hlt := length.isLt
    obtain ⟨m', hret⟩ := henough (leftward elementSize.toNat) (byteMemory []) 0#64 0
      (leftward_answers (Nat.le_of_lt hlt))
    have hnone : ∀ m, heapify (leftward elementSize.toNat) 0#64 elementSize.toNat 0 fuel 0
        (length / elementSize).toNat m = none := by
      rw [BitVec.toNat_udiv] at hsmall hfew ⊢
      exact leftward_zero hlt hsmall (Nat.le_refl _) hfew
    unfold heapsort at hret
    rw [if_neg hsize] at hret
    dsimp only at hret
    rcases Nat.lt_or_ge 1 (length / elementSize).toNat with hmore | hone
    · -- The first call of the first loop does not return.
      obtain ⟨half, hhalf⟩ := Nat.exists_eq_succ_of_ne_zero (show (length / elementSize).toNat / 2 ≠ 0 by omega)
      rw [hhalf, List.range_succ_eq_map, List.foldlM_cons, hnone, Option.bind_eq_bind,
        Option.bind_none, Option.bind_none] at hret
      cases hret
    · obtain hcount : (length / elementSize).toNat = 1 := by omega
      rw [hcount, Nat.clog_one_right, Nat.le_zero] at hfew
      subst hfew
      rw [hcount, extractRounds_eq (by decide)] at hret
      simp [extractLoop, heapify, leftward] at hret
  · intro hfuel
    obtain ⟨fuel, rfl⟩ := Nat.exists_eq_add_of_lt hfuel
    refine enough_of_le hsize hsmall ?_
    exact (Nat.le_pow_clog (by decide) _).trans (Nat.pow_le_pow_right (by decide) (Nat.le_add_right _ _))

theorem enough_sixteen : Enough 5 2 33 ∧ ¬ Enough 4 2 33 := by
  have hiff : ∀ fuel, Enough fuel 2 33 ↔ Nat.clog 2 16 < fuel := fun fuel =>
    enough_iff_clog (by decide) (by decide) (by decide)
  have hclog : Nat.clog 2 16 = 4 := Nat.clog_pow 2 4 (by decide)
  rw [hiff, hiff, hclog]
  decide

end GenericOs.Heapsort
