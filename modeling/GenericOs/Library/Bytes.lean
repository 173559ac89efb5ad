import Mathlib.Algebra.GroupWithZero.Nat
import Mathlib.Data.List.Induction
import Mathlib.Data.Set.Lattice
import Mathlib.Order.CompletePartialOrder
import Mathlib.Order.Interval.Set.Defs

/-!
# Byte memories

A memory maps addresses of `w` bits to bytes and remembers which bytes were stored to.
Addresses wrap, so a window of bytes may go over the end of the address space.
-/

namespace Bytes

variable {w : Nat}

structure Memory (w : Nat) where
  byte : BitVec w → BitVec 8
  /-- Whether a store has been made to the byte. -/
  written : BitVec w → Bool

/-- The `n` addresses from `a` on. -/
def window (a : BitVec w) (n : Nat) : Set (BitVec w) := {x | (x - a).toNat < n}

namespace Memory

/-- Store `f k` at `a + k` for every `k < n`. -/
def put (m : Memory w) (a : BitVec w) (n : Nat) (f : Nat → BitVec 8) : Memory w where
  byte x := if (x - a).toNat < n then f (x - a).toNat else m.byte x
  written x := decide ((x - a).toNat < n) || m.written x

/-- `memset`. -/
def fill (m : Memory w) (a : BitVec w) (b : BitVec 8) (n : Nat) : Memory w := m.put a n fun _ => b

/-- `memcpy`. -/
def copy (m : Memory w) (dst src : BitVec w) (n : Nat) : Memory w :=
  m.put dst n fun k => m.byte (src + BitVec.ofNat w k)

/-- The `k` bytes at `a`, the low byte first. -/
def read (m : Memory w) (a : BitVec w) : Nat → Nat
  | 0 => 0
  | k + 1 => (m.byte a).toNat + 256 * m.read (a + 1) k

/-- The `n` bytes at `a`. -/
def bytes (m : Memory w) (a : BitVec w) (n : Nat) : List (BitVec 8) :=
  (List.range n).map fun i => m.byte (a + BitVec.ofNat w i)

/-- `checksum += p[i]` for the `n` bytes at `a`. -/
def checksum (m : Memory w) (a : BitVec w) (n : Nat) (start : BitVec 8) : BitVec 8 :=
  (List.range n).foldl (fun c i => c + m.byte (a + BitVec.ofNat w i)) start

/-- Store the `k` low bytes of `v`, the low byte first. -/
def write (m : Memory w) (a : BitVec w) (k v : Nat) : Memory w :=
  m.put a k fun i => BitVec.ofNat 8 (v / 256 ^ i)

end Memory

/-! ## Windows -/

section Window

variable {a x : BitVec w} {n d e k : Nat}

theorem offset_toNat : (a + BitVec.ofNat w k - a).toNat = k % 2 ^ w := by
  rw [BitVec.add_comm, BitVec.add_sub_cancel, BitVec.toNat_ofNat]

theorem mem_window_add (h : k < n) : a + BitVec.ofNat w k ∈ window a n := by
  unfold window
  rw [Set.mem_ofPred_eq, offset_toNat]
  exact lt_of_le_of_lt (Nat.mod_le _ _) h

theorem mem_window_iff : x ∈ window a n ↔ ∃ k < n, x = a + BitVec.ofNat w k := by
  constructor
  · intro h
    refine ⟨(x - a).toNat, h, ?_⟩
    rw [BitVec.ofNat_toNat, BitVec.setWidth_eq, BitVec.add_comm, BitVec.sub_add_cancel]
  · rintro ⟨k, hk, rfl⟩
    exact mem_window_add hk

theorem window_mono (h : k ≤ n) : window a k ⊆ window a n := fun _ hx => lt_of_lt_of_le hx h

theorem window_subset (h : d + k ≤ n) : window (a + BitVec.ofNat w d) k ⊆ window a n := by
  intro x hx
  obtain ⟨i, hi, rfl⟩ := mem_window_iff.mp hx
  rw [BitVec.add_assoc, ← BitVec.ofNat_add]
  exact mem_window_add (by omega)

theorem window_subset_iff (hd : d < 2 ^ w) (hn : n < 2 ^ w) (hk : k < 2 ^ w) :
    window (a + BitVec.ofNat w d) k ⊆ window a n ↔ k = 0 ∨ d + k ≤ n := by
  constructor
  · intro h
    by_contra hout
    -- The first byte is in the window, and so is the first one after it.
    have hat : ∀ e < k, (d + e) % 2 ^ w < n := by
      intro e he
      have hin := h (mem_window_add he)
      rw [BitVec.add_assoc, ← BitVec.ofNat_add] at hin
      unfold window at hin
      rwa [Set.mem_ofPred_eq, offset_toNat] at hin
    have hfirst := hat 0 (by omega)
    rw [Nat.add_zero, Nat.mod_eq_of_lt hd] at hfirst
    have hlast := hat (n - d) (by omega)
    rw [Nat.add_sub_cancel' (by omega), Nat.mod_eq_of_lt hn] at hlast
    exact Nat.lt_irrefl n hlast
  · rintro (rfl | h)
    · exact fun x hx => absurd hx (Nat.not_lt_zero _)
    · exact window_subset h

theorem window_disjoint (hd : d + k ≤ 2 ^ w) (he : e + n ≤ 2 ^ w)
    (h : Disjoint (Set.Ico d (d + k)) (Set.Ico e (e + n))) :
    Disjoint (window (a + BitVec.ofNat w d) k) (window (a + BitVec.ofNat w e) n) := by
  rw [Set.disjoint_left] at h ⊢
  intro x hx hy
  obtain ⟨i, hi, rfl⟩ := mem_window_iff.mp hx
  obtain ⟨j, hj, heq⟩ := mem_window_iff.mp hy
  rw [BitVec.add_assoc, BitVec.add_assoc, BitVec.add_right_inj, ← BitVec.ofNat_add, ← BitVec.ofNat_add] at heq
  have hnat : (d + i) % 2 ^ w = (e + j) % 2 ^ w := by
    have := congrArg BitVec.toNat heq
    rwa [BitVec.toNat_ofNat, BitVec.toNat_ofNat] at this
  rw [Nat.mod_eq_of_lt (by omega), Nat.mod_eq_of_lt (by omega)] at hnat
  exact h (Set.mem_Ico.mpr ⟨Nat.le_add_right d i, by omega⟩) (Set.mem_Ico.mpr ⟨by omega, by omega⟩)

theorem window_apart (hd : d + k ≤ 2 ^ w) (he : e + n ≤ 2 ^ w) (h : d + k ≤ e ∨ e + n ≤ d) :
    Disjoint (window (a + BitVec.ofNat w d) k) (window (a + BitVec.ofNat w e) n) := by
  apply window_disjoint hd he
  rw [Set.disjoint_left]
  intro x hx hy
  rw [Set.mem_Ico] at hx hy
  omega

end Window

/-! ## Lists of bytes -/

section List

variable {m : Memory w} {a : BitVec w} {n k : Nat}

@[simp] theorem bytes_length : (m.bytes a n).length = n := by
  unfold Memory.bytes
  rw [List.length_map, List.length_range]

theorem bytes_add : m.bytes a (n + k) = m.bytes a n ++ m.bytes (a + BitVec.ofNat w n) k := by
  unfold Memory.bytes
  rw [List.range_add, List.map_append, List.map_map]
  congr 1
  apply List.map_congr_left
  intro i _
  rw [Function.comp_apply, BitVec.ofNat_add, BitVec.add_assoc]

theorem bytes_getElem? (hk : k < n) : (m.bytes a n)[k]? = some (m.byte (a + BitVec.ofNat w k)) := by
  unfold Memory.bytes
  rw [List.getElem?_map, List.getElem?_range hk]
  rfl

end List

/-! ## What a store changes -/

def AgreeOn (K : Set (BitVec w)) (m m' : Memory w) : Prop := ∀ x ∈ K, m'.byte x = m.byte x

/-- From `m` to `m'` nothing was stored outside `R`. -/
structure SameOutside (R : Set (BitVec w)) (m m' : Memory w) : Prop where
  byte : ∀ x ∉ R, m'.byte x = m.byte x
  written : ∀ x ∉ R, m'.written x = m.written x

variable {K R S : Set (BitVec w)} {m m' m'' : Memory w} {a : BitVec w} {n k : Nat} {f : Nat → BitVec 8}

theorem AgreeOn.refl (K : Set (BitVec w)) (m : Memory w) : AgreeOn K m m := fun _ _ => rfl

theorem AgreeOn.mono (h : AgreeOn K m m') (hsub : S ⊆ K) : AgreeOn S m m' := fun x hx => h x (hsub hx)

theorem AgreeOn.trans (h : AgreeOn K m m') (h' : AgreeOn K m' m'') : AgreeOn K m m'' :=
  fun x hx => (h' x hx).trans (h x hx)

theorem SameOutside.refl (R : Set (BitVec w)) (m : Memory w) : SameOutside R m m :=
  ⟨fun _ _ => rfl, fun _ _ => rfl⟩

theorem SameOutside.mono (h : SameOutside R m m') (hsub : R ⊆ S) : SameOutside S m m' :=
  ⟨fun x hx => h.byte x fun hr => hx (hsub hr), fun x hx => h.written x fun hr => hx (hsub hr)⟩

theorem SameOutside.trans (h : SameOutside R m m') (h' : SameOutside R m' m'') : SameOutside R m m'' :=
  ⟨fun x hx => (h'.byte x hx).trans (h.byte x hx), fun x hx => (h'.written x hx).trans (h.written x hx)⟩

theorem SameOutside.agreeOn (h : SameOutside R m m') (hd : Disjoint R K) : AgreeOn K m m' :=
  fun x hx => h.byte x fun hr => Set.disjoint_left.mp hd hr hx

theorem SameOutside.agreeOn_iUnion {ι : Type*} {ps : List ι} {R : ι → Set (BitVec w)}
    (h : SameOutside (⋃ p ∈ ps, R p) m m') (hd : ∀ p ∈ ps, Disjoint (R p) K) : AgreeOn K m m' := by
  apply h.agreeOn
  simp only [Set.disjoint_iUnion_left]
  exact hd

theorem put_sameOutside : SameOutside (window a n) m (m.put a n f) := by
  constructor
  · intro x hx
    exact if_neg hx
  · intro x hx
    have hoff : ¬ (x - a).toNat < n := hx
    unfold Memory.put
    simp only [hoff, decide_false, Bool.false_or]

theorem put_byte (hk : k < n) (hn : n ≤ 2 ^ w) : (m.put a n f).byte (a + BitVec.ofNat w k) = f k := by
  have hoff : (a + BitVec.ofNat w k - a).toNat = k := by
    rw [offset_toNat, Nat.mod_eq_of_lt (by omega)]
  unfold Memory.put
  simp only [hoff, if_pos hk]

theorem put_written {x : BitVec w} (hx : x ∈ window a n) : (m.put a n f).written x = true := by
  have hoff : (x - a).toNat < n := hx
  unfold Memory.put
  simp only [hoff, decide_true, Bool.true_or]

theorem put_written_mono {x : BitVec w} (hx : m.written x = true) : (m.put a n f).written x = true := by
  unfold Memory.put
  simp only [hx, Bool.or_true]

theorem read_congr (h : AgreeOn (window a k) m m') : m'.read a k = m.read a k := by
  induction k generalizing a with
  | zero => rfl
  | succ k ih =>
    have hhead : m'.byte a = m.byte a := by
      apply h
      have := mem_window_add (a := a) (Nat.succ_pos k)
      rwa [BitVec.add_zero] at this
    have htail : AgreeOn (window (a + 1) k) m m' := by
      apply h.mono
      exact window_subset (d := 1) (by omega)
    unfold Memory.read
    rw [hhead, ih htail]

theorem read_at_congr {d l : Nat} (h : AgreeOn (window a n) m m') (hdl : d + l ≤ n) :
    m'.read (a + BitVec.ofNat w d) l = m.read (a + BitVec.ofNat w d) l :=
  read_congr (h.mono (window_subset hdl))

theorem read_write {v d l : Nat} (hdl : d + l ≤ k) (hk : k ≤ 2 ^ w) :
    (m.write a k v).read (a + BitVec.ofNat w d) l = v / 256 ^ d % 256 ^ l := by
  induction l generalizing d with
  | zero => rw [Nat.pow_zero, Nat.mod_one]; rfl
  | succ l ih =>
    have hbyte : (m.write a k v).byte (a + BitVec.ofNat w d) = BitVec.ofNat 8 (v / 256 ^ d) :=
      put_byte (by omega) hk
    have hnext : a + BitVec.ofNat w d + 1 = a + BitVec.ofNat w (d + 1) := by
      rw [BitVec.ofNat_add, ← BitVec.add_assoc]
      rfl
    have hdiv : v / 256 ^ (d + 1) = v / 256 ^ d / 256 := by rw [Nat.pow_succ, Nat.div_div_eq_div_mul]
    have hmod : v / 256 ^ d % 256 ^ (l + 1) = v / 256 ^ d % 256 + 256 * (v / 256 ^ d / 256 % 256 ^ l) := by
      rw [Nat.pow_succ', Nat.mod_mul]
    unfold Memory.read
    rw [hbyte, hnext, ih (by omega), hdiv, BitVec.toNat_ofNat, hmod]

theorem write_written {v : Nat} {x : BitVec w} (hx : x ∈ window a k) : (m.write a k v).written x = true :=
  put_written hx

theorem write_sameOutside {v : Nat} : SameOutside (window a k) m (m.write a k v) := put_sameOutside

theorem read_write_self {v : Nat} (hk : k ≤ 2 ^ w) : (m.write a k v).read a k = v % 256 ^ k := by
  have := read_write (m := m) (a := a) (v := v) (d := 0) (l := k) (by omega) hk
  rwa [BitVec.add_zero, Nat.pow_zero, Nat.div_one] at this

theorem read_write_apart {v d l e : Nat} (hd : d + l ≤ 2 ^ w) (he : e + k ≤ 2 ^ w) (h : d + l ≤ e ∨ e + k ≤ d) :
    (m.write (a + BitVec.ofNat w e) k v).read (a + BitVec.ofNat w d) l = m.read (a + BitVec.ofNat w d) l := by
  apply read_congr
  apply write_sameOutside.agreeOn
  exact window_apart he hd h.symm

/-! ## The same bytes elsewhere -/

/-- The `n` bytes that `m` has at `a` are in `m'` at `a'`. -/
def Copied (n : Nat) (m : Memory w) (a : BitVec w) (m' : Memory w) (a' : BitVec w) : Prop :=
  ∀ i < n, m'.byte (a' + BitVec.ofNat w i) = m.byte (a + BitVec.ofNat w i)

theorem Copied.read {a' : BitVec w} {d l : Nat} (h : Copied n m a m' a') (hdl : d + l ≤ n) :
    m'.read (a' + BitVec.ofNat w d) l = m.read (a + BitVec.ofNat w d) l := by
  induction l generalizing d with
  | zero => rfl
  | succ l ih =>
    have hnext : ∀ b : BitVec w, b + BitVec.ofNat w d + 1 = b + BitVec.ofNat w (d + 1) := by
      intro b
      rw [BitVec.ofNat_add, ← BitVec.add_assoc]
      rfl
    unfold Memory.read
    rw [h d (by omega), hnext, hnext, ih (by omega)]

/-! ## Sums of bytes -/

theorem checksum_eq_foldl (m : Memory w) (a : BitVec w) (n : Nat) (start : BitVec 8) :
    m.checksum a n start = (m.bytes a n).foldl (· + ·) start := List.foldl_map.symm

theorem checksum_toNat (m : Memory w) (a : BitVec w) (n : Nat) (start : BitVec 8) :
    (m.checksum a n start).toNat = (start.toNat + ((m.bytes a n).map BitVec.toNat).sum) % 256 := by
  have hfold : ∀ (bs : List (BitVec 8)) (c : BitVec 8),
      (bs.foldl (· + ·) c).toNat = (c.toNat + (bs.map BitVec.toNat).sum) % 256 := by
    intro bs
    induction bs with
    | nil => exact fun c => (Nat.mod_eq_of_lt c.isLt).symm
    | cons b bs ih =>
      intro c
      rw [List.foldl_cons, ih, BitVec.toNat_add, List.map_cons, List.sum_cons]
      omega
  rw [checksum_eq_foldl, hfold]

/-! ## Stores one after the other -/

/-- From every memory that has the bytes of `m` on `K`, `f` stores the bytes `c` in `R` and
nothing elsewhere. -/
structure Puts (K : Set (BitVec w)) (m : Memory w) (f : Memory w → Memory w) (R : Set (BitVec w))
    (c : BitVec w → BitVec 8) : Prop where
  shows : ∀ m', AgreeOn K m m' → ∀ x ∈ R, (f m').byte x = c x
  marks : ∀ m', AgreeOn K m m' → ∀ x ∈ R, (f m').written x = true
  frame : ∀ m', AgreeOn K m m' → SameOutside R m' (f m')

/-- Stores to windows that are apart from each other and from the bytes they depend on all
keep their bytes. -/
theorem Puts.run {ι : Type*} {f : ι → Memory w → Memory w} {R : ι → Set (BitVec w)} {c : ι → BitVec w → BitVec 8}
    {ps : List ι} (hputs : ∀ p ∈ ps, Puts K m (f p) (R p) (c p)) (hapart : ∀ p ∈ ps, Disjoint (R p) K)
    (hpair : ps.Pairwise fun p q => Disjoint (R p) (R q)) :
    SameOutside (⋃ p ∈ ps, R p) m (ps.foldl (fun m p => f p m) m) ∧
      ∀ p ∈ ps, ∀ x ∈ R p, (ps.foldl (fun m p => f p m) m).byte x = c p x ∧
        (ps.foldl (fun m p => f p m) m).written x = true := by
  induction ps using List.reverseRecOn with
  | nil => exact ⟨SameOutside.refl _ m, fun p hp => absurd hp List.not_mem_nil⟩
  | append_singleton ps q ih =>
    have hlast : q ∈ ps ++ [q] := by simp
    have hsub : ∀ p ∈ ps, p ∈ ps ++ [q] := fun p hp => List.mem_append_left _ hp
    rw [List.pairwise_append] at hpair
    obtain ⟨hframe, hshows⟩ :=
      ih (fun p hp => hputs p (hsub p hp)) (fun p hp => hapart p (hsub p hp)) hpair.1
    rw [List.foldl_append, List.foldl_cons, List.foldl_nil]
    have hagree : AgreeOn K m (ps.foldl (fun m p => f p m) m) :=
      hframe.agreeOn_iUnion fun p hp => hapart p (hsub p hp)
    have hq := hputs q hlast
    refine ⟨?_, ?_⟩
    · apply SameOutside.trans (hframe.mono _) ((hq.frame _ hagree).mono _)
      · exact Set.biUnion_subset_biUnion_left hsub
      · exact Set.subset_biUnion_of_mem hlast
    · intro p hp x hx
      rcases List.mem_append.mp hp with hp | hp
      · -- The last store is somewhere else.
        have hnot : x ∉ R q := fun hxq =>
          Set.disjoint_left.mp (hpair.2.2 p hp q (List.mem_singleton_self q)) hx hxq
        rw [(hq.frame _ hagree).byte x hnot, (hq.frame _ hagree).written x hnot]
        exact hshows p hp x hx
      · obtain rfl := List.mem_singleton.mp hp
        exact ⟨hq.shows _ hagree x hx, hq.marks _ hagree x hx⟩

end Bytes
