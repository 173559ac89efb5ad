import GenericOs.Heapsort.Heapify

/-!
# `Heapsort` with any comparison

Nothing is assumed of `cmp` but that it answers for elements. As long as no index wraps,
`Heapify` goes to greater and greater nodes and every exchange is one of two elements.
-/

namespace GenericOs.Heapsort

open Bytes Heap

/-- The bytes behind the last element. -/
def rest (m : Memory 64) (trg : BitVec 64) (elementSize length : Nat) : List (BitVec 8) :=
  m.bytes (element trg (length / elementSize) elementSize) (length % elementSize)

/-- On elements `cmp` answers anything and `swap` exchanges them and keeps the rest. Elsewhere both may fail. -/
structure Answers (cb : Callbacks) (trg : BitVec 64) (elementSize length : Nat) (p : BitVec 64) : Prop where
  cmp : ∀ m, ∀ i < length / elementSize, ∀ j < length / elementSize,
    ∃ answer, cb.cmp m (element trg i elementSize) (element trg j elementSize) p = some answer
  swap : ∀ m, ∀ i < length / elementSize, ∀ j < length / elementSize,
    ∃ m', cb.swap m (element trg i elementSize) (element trg j elementSize) = some m' ∧
      (∀ k < length / elementSize, content m' trg elementSize k = content m trg elementSize (Equiv.swap i j k)) ∧
      rest m' trg elementSize length = rest m trg elementSize length

/-- `Heapsort` returns a permutation of the elements and keeps the rest, whatever `cmp` answers. -/
def Safe (elementSize length : BitVec 64) : Prop :=
  ∀ (cb : Callbacks) (m : Memory 64) (trg p : BitVec 64), Answers cb trg elementSize.toNat length.toNat p →
    ∃ fuel m', heapsort cb fuel trg elementSize length p m = some m' ∧
      (elements m' trg elementSize.toNat (length / elementSize).toNat).Perm
        (elements m trg elementSize.toNat (length / elementSize).toNat) ∧
      rest m' trg elementSize.toNat length.toNat = rest m trg elementSize.toNat length.toNat

/-! ## Rearranging -/

/-- The elements of `m'` are those of `m` in some order, and the rest is the same. -/
structure Rearranged (trg : BitVec 64) (elementSize length : Nat) (m m' : Memory 64) : Prop where
  elements : ∃ σ : Equiv.Perm Nat, (∀ j, length / elementSize ≤ j → σ j = j) ∧
    ∀ k < length / elementSize, content m' trg elementSize k = content m trg elementSize (σ k)
  rest : rest m' trg elementSize length = rest m trg elementSize length

section

variable {cb : Callbacks} {m m' m'' : Memory 64} {trg p : BitVec 64} {elementSize length count fuel i j id : Nat}

theorem Rearranged.refl (m : Memory 64) : Rearranged trg elementSize length m m :=
  ⟨⟨Equiv.refl Nat, fun _ _ => rfl, fun _ _ => rfl⟩, rfl⟩

theorem Rearranged.trans (h : Rearranged trg elementSize length m m') (h' : Rearranged trg elementSize length m' m'') :
    Rearranged trg elementSize length m m'' := by
  obtain ⟨⟨σ, hfix, hcontent⟩, hrest⟩ := h
  obtain ⟨⟨τ, hfix', hcontent'⟩, hrest'⟩ := h'
  refine ⟨⟨τ.trans σ, fun j hj => ?_, fun k hk => ?_⟩, hrest'.trans hrest⟩
  · rw [Equiv.trans_apply, hfix' j hj, hfix j hj]
  · rw [hcontent' k hk, hcontent _ (lt_of_fixed hfix' hk), Equiv.trans_apply]

theorem Answers.exchange (hcb : Answers cb trg elementSize length p) (hi : i < length / elementSize)
    (hj : j < length / elementSize) (m : Memory 64) :
    ∃ m', cb.swap m (element trg i elementSize) (element trg j elementSize) = some m' ∧
      Rearranged trg elementSize length m m' := by
  obtain ⟨m', hm', hcontent, hrest⟩ := hcb.swap m i hi j hj
  refine ⟨m', hm', ⟨Equiv.swap i j, fun k hk => ?_, hcontent⟩, hrest⟩
  exact Equiv.swap_apply_of_ne_of_ne (by omega) (by omega)

theorem largerOf_answers (hcb : Answers cb trg elementSize length p) (hcount : count ≤ length / elementSize)
    (hi : i < length / elementSize) (child : Nat) (m : Memory 64) :
    ∃ largest, largerOf cb m trg elementSize count p i child = some largest ∧
      (largest = i ∨ largest = child ∧ child < count) := by
  unfold largerOf
  split
  · next hchild =>
    obtain ⟨answer, hanswer⟩ := hcb.cmp m i hi child (by omega)
    rw [hanswer]
    cases answer with
    | true => exact ⟨child, rfl, Or.inr ⟨rfl, hchild⟩⟩
    | false => exact ⟨i, rfl, Or.inl rfl⟩
  · exact ⟨i, rfl, Or.inl rfl⟩

/-- Every call goes on at a greater node. -/
theorem heapify_answers (hcb : Answers cb trg elementSize length p) (hlength : length / elementSize ≤ 2 ^ 63)
    (hcount : count ≤ length / elementSize) (hid : id < length / elementSize) (hfuel : count - id < fuel)
    (m : Memory 64) :
    ∃ m', heapify cb trg elementSize p fuel id count m = some m' ∧ Rearranged trg elementSize length m m' := by
  induction fuel generalizing id m with
  | zero => omega
  | succ fuel ih =>
    obtain ⟨hleft, hright⟩ := word_children (show id < 2 ^ 63 by omega)
    unfold heapify
    dsimp only
    rw [hleft, hright]
    obtain ⟨l, hl, hlcases⟩ := largerOf_answers hcb hcount hid (2 * id) m
    rw [hl]
    obtain ⟨k, hk, hkcases⟩ := largerOf_answers hcb hcount (show l < length / elementSize by omega) (2 * id + 1) m
    simp only [Option.bind_eq_bind, Option.bind_some]
    rw [hk]
    simp only [Option.bind_some]
    split
    · next hgo =>
      obtain ⟨m', hm', h'⟩ := hcb.exchange hid (show k < length / elementSize by omega) m
      rw [hm']
      obtain ⟨m'', hm'', h''⟩ := ih (show k < length / elementSize by omega) (by omega) m'
      exact ⟨m'', hm'', h'.trans h''⟩
    · exact ⟨m, rfl, Rearranged.refl m⟩

theorem build_answers (hcb : Answers cb trg elementSize length p) (hlength : length / elementSize ≤ 2 ^ 63)
    (hfuel : length / elementSize < fuel) (m : Memory 64) :
    ∃ m', (List.range (length / elementSize / 2)).foldlM
        (fun m i => heapify cb trg elementSize p fuel i (length / elementSize) m) m = some m' ∧
      Rearranged trg elementSize length m m' := by
  apply build_run (P := fun _ => Rearranged trg elementSize length m) (Rearranged.refl m)
  intro i hi m' h'
  obtain ⟨m'', hm'', h''⟩ := heapify_answers hcb hlength (Nat.le_refl _) (show i < length / elementSize by omega)
    (show length / elementSize - i < fuel by omega) m'
  exact ⟨m'', hm'', h'.trans h''⟩

theorem extractLoop_answers (hcb : Answers cb trg elementSize length p) (hlength : length / elementSize ≤ 2 ^ 63)
    (hfuel : length / elementSize < fuel) (m : Memory 64) :
    ∃ m', extractLoop cb trg elementSize p fuel (length / elementSize) m = some m' ∧
      Rearranged trg elementSize length m m' := by
  apply extractLoop_run (P := fun _ => Rearranged trg elementSize length m) (Rearranged.refl m)
  intro i hi m' h'
  obtain ⟨m'', hm'', h''⟩ := hcb.exchange (show 0 < length / elementSize by omega) hi m'
  obtain ⟨m₃, hm₃, h₃⟩ := heapify_answers hcb hlength (Nat.le_of_lt hi) (show 0 < length / elementSize by omega)
    (show i - 0 < fuel by omega) m''
  exact ⟨m'', m₃, hm'', hm₃, (h'.trans h'').trans h₃⟩

end

/-! ## `Heapsort` -/

section

variable {elementSize length : BitVec 64}

theorem safe_of_small (hsize : elementSize ≠ 0) (hsmall : (length / elementSize).toNat ≤ 2 ^ 63) :
    Safe elementSize length := by
  intro cb m trg p hcb
  have hcount : (length / elementSize).toNat = length.toNat / elementSize.toNat := BitVec.toNat_udiv
  rw [hcount] at hsmall ⊢
  obtain ⟨m₁, hm₁, h₁⟩ := build_answers hcb hsmall (Nat.lt_succ_self _) m
  obtain ⟨m₂, hm₂, h₂⟩ := extractLoop_answers hcb hsmall (Nat.lt_succ_self _) m₁
  obtain ⟨⟨σ, hfix, hcontent⟩, hrest⟩ := h₁.trans h₂
  refine ⟨length.toNat / elementSize.toNat + 1, m₂, ?_, elements_perm hfix hcontent, hrest⟩
  unfold heapsort
  rw [if_neg hsize]
  dsimp only
  rw [hcount, hm₁, extractRounds_eq hsmall]
  exact hm₂

theorem byteCallbacks_answers (trg p : BitVec 64) {length : Nat} (hlength : length ≤ 2 ^ 64) :
    Answers byteCallbacks trg 1 length p := by
  rw [← Nat.div_one length] at hlength
  constructor
  · intro m i hi j hj
    have hworks := byteCallbacks_works m trg p hlength
    exact ⟨_, hworks.cmp m (SameOutside.refl _ _) i hi j hj⟩
  · intro m i hi j hj
    have hworks := byteCallbacks_works m trg p hlength
    obtain ⟨m', hm', -, hcontent⟩ := hworks.swap m (SameOutside.refl _ _) i hi j hj
    refine ⟨m', hm', hcontent, ?_⟩
    unfold rest
    rw [Nat.mod_one]
    rfl

theorem not_safe (hlength : 2 ^ 63 < length.toNat) : ¬ Safe 1 length := by
  intro hsafe
  have hlt := length.isLt
  have hcount : (length / 1#64).toNat = length.toNat := by
    rw [BitVec.toNat_udiv]
    exact Nat.div_one _
  obtain ⟨fuel, m', hret, -⟩ := hsafe byteCallbacks (holedMemory (trail 1 63) 0 4096) 4096 0
    (byteCallbacks_answers 4096 0 (Nat.le_of_lt hlt))
  -- The first call of the first loop does not return.
  obtain ⟨half, hhalf⟩ := Nat.exists_eq_succ_of_ne_zero (show length.toNat / 2 ≠ 0 by omega)
  unfold heapsort at hret
  rw [if_neg (by decide)] at hret
  dsimp only at hret
  rw [show (1 : BitVec 64) = 1#64 from rfl, hcount, hhalf, List.range_succ_eq_map, List.foldlM_cons] at hret
  change Option.bind (Option.bind (heapify byteCallbacks 4096 1 0 fuel 0 length.toNat _) _) _ = _ at hret
  rw [heapify_zero_none hlt (Nat.le_refl _) hlength] at hret
  exact absurd hret (by simp)

/-- `Heapsort` is safe exactly for arrays of at most `2 ^ 63` elements. -/
theorem heapsort_safe_iff (hsize : elementSize ≠ 0) :
    Safe elementSize length ↔ (length / elementSize).toNat ≤ 2 ^ 63 := by
  constructor
  · intro hsafe
    by_contra hlarge
    have hcount : (length / elementSize).toNat = length.toNat / elementSize.toNat := BitVec.toNat_udiv
    have hlt := length.isLt
    have hpos : elementSize.toNat ≠ 0 := fun h => hsize (BitVec.eq_of_toNat_eq h)
    have hmul : 2 ^ 63 * elementSize.toNat < 2 ^ 64 := by
      have := Nat.div_mul_le_self length.toNat elementSize.toNat
      have := Nat.mul_le_mul_right elementSize.toNat (show 2 ^ 63 ≤ length.toNat / elementSize.toNat by omega)
      omega
    obtain rfl : elementSize = 1 := BitVec.eq_of_toNat_eq (show elementSize.toNat = 1 by omega)
    rw [hcount] at hlarge
    apply not_safe _ hsafe
    have hone : length.toNat / (1 : BitVec 64).toNat = length.toNat := Nat.div_one _
    omega
  · exact safe_of_small hsize

end

theorem heapsort_safe_two : Safe 3 8 := (heapsort_safe_iff (by decide)).mpr (by decide)

theorem heapsort_safe_fails : ¬ Safe 1 0x8000000000000001 := not_safe (by decide)

end GenericOs.Heapsort
