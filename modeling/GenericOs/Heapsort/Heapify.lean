import Mathlib.Algebra.Order.Ring.Nat
import Mathlib.Data.Nat.Prime.Basic
import GenericOs.Heapsort.Sort

/-!
# What one `Heapify` does

Where no index of the subtree wraps, `Heapify` restores the heap. From 2^63 on the children
of a node are at wrapped indices, outside of its subtree: there are arrays of bytes where an
element sinks into a node that it has nothing to do with, or goes round for ever.
-/

namespace GenericOs.Heapsort

open Bytes Heap

/-- The subtree of `id` is a heap with the elements it had, and the other elements are as they were. -/
structure Restored (before : List (BitVec 8) → List (BitVec 8) → Bool) (m m' : Memory 64) (trg : BitVec 64)
    (elementSize total count id : Nat) : Prop where
  heap : HeapFrom (fun x y => before x y = true) count (content m' trg elementSize) id
  moved : ∃ σ : Equiv.Perm Nat, (∀ k, σ k ≠ k → Below id k ∧ k < count) ∧
    ∀ k < total, content m' trg elementSize k = content m trg elementSize (σ k)

/-- In every array of `total` elements `Heapify` restores the heap of `count` elements below `id`. -/
def Heapifies (elementSize total count id : Nat) : Prop :=
  ∀ (cb : Callbacks) (m : Memory 64) (trg p : BitVec 64) (before : List (BitVec 8) → List (BitVec 8) → Bool),
    Works cb m trg elementSize total p before → IsStrictWeakOrder _ (fun x y => before x y = true) →
    (∀ j, 0 < j → j < count → Below id (j / 2) → j / 2 ≠ id →
      ¬ before (content m trg elementSize (j / 2)) (content m trg elementSize j) = true) →
    ∃ fuel m', heapify cb trg elementSize p fuel id count m = some m' ∧
      Restored before m m' trg elementSize total count id

section

variable {elementSize total count id : Nat}

theorem heapifies_of_small (hcount : count ≤ total) (hid : id < count)
    (hsmall : ∀ j, Below id j → j < count → j < 2 ^ 63) : Heapifies elementSize total count id := by
  intro cb m trg p before hcb horder hheap
  have hstart : Holds m trg elementSize total m (content m trg elementSize) := ⟨SameOutside.refl _ _, fun _ _ => rfl⟩
  obtain ⟨m', hm', h'⟩ := heapify_spec hcb hstart hcount (hid.trans_le hcount)
    (fun j hj hjc => hsmall j hj (by omega)) (Nat.lt_succ_self (count - id))
  obtain ⟨σ, hσ, hmoved⟩ := siftDown_perm (fun x y => before x y = true) count (content m trg elementSize) id
  refine ⟨_, m', hm', ?_, σ, hmoved, ?_⟩
  · intro j hpos hj hbelow
    rw [h'.elements (j / 2) (by omega), h'.elements j (by omega)]
    exact siftDown_heap (r := fun x y => before x y = true) hheap j hpos hj hbelow
  · intro k hk
    rw [h'.elements k hk, hσ, Function.comp_apply]

end

/-! ## An element that sinks too deep -/

/-- The bytes are 1 on the trail, but for the hole at `x`, and 0 elsewhere. -/
def holed (trail : List Nat) (x k : Nat) : List (BitVec 8) := if k ∈ trail ∧ k ≠ x then [1] else [0]

def holedMemory (trail : List Nat) (x : Nat) (trg : BitVec 64) : Memory 64 where
  byte a := if (a - trg).toNat ∈ trail ∧ (a - trg).toNat ≠ x then 1 else 0
  written _ := false

/-- `Heapify` at the hole takes it to `c`. -/
def Pulls (trail : List Nat) (count x c : Nat) : Prop := c < count ∧ c ∈ trail ∧ c ≠ x

instance (trail : List Nat) (count x c : Nat) : Decidable (Pulls trail count x c) :=
  inferInstanceAs (Decidable (c < count ∧ c ∈ trail ∧ c ≠ x))

section Hole

variable {m₀ m m' : Memory 64} {trg p : BitVec 64} {trail : List Nat} {total count fuel x c i k : Nat}

theorem holed_self : holed trail x x = [0] := if_neg fun h => h.2 rfl

theorem byteBefore_holed : byteBefore (holed trail x i) (holed trail x k) = true ↔
    ¬ (i ∈ trail ∧ i ≠ x) ∧ k ∈ trail ∧ k ≠ x := by
  unfold holed byteBefore
  split_ifs with hi hk hk
  · exact ⟨fun h => absurd h (by decide), fun h => absurd hi h.1⟩
  · exact ⟨fun h => absurd h (by decide), fun h => absurd hi h.1⟩
  · exact ⟨fun _ => ⟨hi, hk⟩, fun _ => by decide⟩
  · exact ⟨fun h => absurd h (by decide), fun h => absurd h.2 hk⟩

theorem holed_swap (hx : x ∈ trail) (hc : c ∈ trail) : holed trail x ∘ Equiv.swap x c = holed trail c := by
  funext k
  rw [Function.comp_apply, Equiv.swap_apply_def]
  unfold holed
  split_ifs <;> simp_all

theorem wordPick_holed : wordPick (fun y z => byteBefore y z = true) count (holed trail x) x =
    if Pulls trail count x (word (x * 2)) then word (x * 2)
    else if Pulls trail count x (word (word (x * 2) + 1)) then word (word (x * 2) + 1) else x := by
  have hfull : ∀ {c k}, c ∈ trail → c ≠ x → ¬ byteBefore (holed trail x c) (holed trail x k) = true := fun hc hne h =>
    (byteBefore_holed.mp h).1 ⟨hc, hne⟩
  have hhole : ∀ {c}, (c < count ∧ byteBefore (holed trail x x) (holed trail x c) = true) ↔ Pulls trail count x c := by
    intro c
    rw [byteBefore_holed]
    exact ⟨fun h => ⟨h.1, h.2.2⟩, fun h => ⟨h.1, fun h' => h'.2 rfl, h.2⟩⟩
  unfold wordPick
  split
  · next hleft =>
    have htake : larger (fun y z => byteBefore y z = true) count (holed trail x) x (word (x * 2)) = word (x * 2) :=
      if_pos (hhole.mpr hleft)
    rw [htake]
    exact if_neg fun h => hfull hleft.2.1 hleft.2.2 h.2
  · next hleft =>
    have hstay : larger (fun y z => byteBefore y z = true) count (holed trail x) x (word (x * 2)) = x :=
      if_neg fun h => hleft (hhole.mp h)
    rw [hstay]
    exact if_congr hhole rfl rfl

/-- A hole that stays on the trail, and that can stop only at `stop`, is there when `Heapify` returns. -/
theorem heapify_hole (stop : Nat) (htotal : total ≤ 2 ^ 64) (hcount : count ≤ total) (htrail : ∀ x ∈ trail, x < total)
    (hgo : ∀ x ∈ trail, x ≠ stop → wordPick (fun y z => byteBefore y z = true) count (holed trail x) x ≠ x)
    (hx : x ∈ trail) (h : Holds m₀ trg 1 total m (holed trail x))
    (hret : heapify byteCallbacks trg 1 p fuel x count m = some m') :
    Holds m₀ trg 1 total m' (holed trail stop) ∧
      wordPick (fun y z => byteBefore y z = true) count (holed trail stop) stop = stop := by
  have hworks := byteCallbacks_works m₀ trg p htotal
  induction fuel generalizing x m with
  | zero => exact absurd hret (by unfold heapify; simp)
  | succ fuel ih =>
    rcases heapify_step hworks h hcount (htrail x hx) fuel with ⟨hstop, hcall⟩ | ⟨hne, m'', h'', hcall⟩
    · obtain rfl : x = stop := by
        by_contra hxs
        exact hgo x hx hxs hstop
      rw [hcall] at hret
      obtain rfl := Option.some.inj hret
      exact ⟨h, hstop⟩
    · have hmem : wordPick (fun y z => byteBefore y z = true) count (holed trail x) x ∈ trail := by
        rw [wordPick_holed] at hne ⊢
        split_ifs at hne ⊢ with hleft hright
        · exact hleft.2.1
        · exact hright.2.1
        · exact absurd rfl hne
      rw [holed_swap hx hmem] at h''
      rw [hcall] at hret
      exact ih hmem h'' hret

theorem holedMemory_holds (trail : List Nat) (x : Nat) (trg : BitVec 64) (htotal : total ≤ 2 ^ 64) :
    Holds (holedMemory trail x trg) trg 1 total (holedMemory trail x trg) (holed trail x) := by
  refine ⟨SameOutside.refl _ _, fun k hk => ?_⟩
  have hoffset : (trg + BitVec.ofNat 64 k - trg).toNat = k := by
    rw [offset_toNat, Nat.mod_eq_of_lt (by omega)]
  rw [content_byte]
  unfold holedMemory holed
  dsimp only
  rw [hoffset]
  split_ifs <;> rfl

end Hole

/-! ## The trail from a node to a wrapped index -/

/-- The nodes from `id` on to the left for `e` steps, and the index that the last one of them has on its left. -/
def trail (id e : Nat) : List Nat := (id * 2 ^ (e + 1) - 2 ^ 64) :: (List.range (e + 1)).map (id * 2 ^ ·)

section Trail

variable {id e x total count : Nat}

theorem mem_trail : x ∈ trail id e ↔ x = id * 2 ^ (e + 1) - 2 ^ 64 ∨ ∃ k ≤ e, x = id * 2 ^ k := by
  unfold trail
  rw [List.mem_cons, List.mem_map]
  apply or_congr_right
  constructor
  · rintro ⟨k, hk, rfl⟩
    exact ⟨k, Nat.le_of_lt_succ (List.mem_range.mp hk), rfl⟩
  · rintro ⟨k, hk, rfl⟩
    exact ⟨k, List.mem_range.mpr (Nat.lt_succ_of_le hk), rfl⟩

/-- The last node of the trail is the first one whose children wrap. -/
structure Wraps (id e count : Nat) : Prop where
  pos : 0 < id
  low : 2 ^ 63 ≤ id * 2 ^ e
  there : id * 2 ^ e < count

theorem exponent_lt (hpos : 0 < id) (h : id * 2 ^ e < 2 ^ 64) : e < 64 := by
  have hle : 2 ^ e ≤ id * 2 ^ e := Nat.le_mul_of_pos_left _ hpos
  exact (Nat.pow_lt_pow_iff_right (Nat.lt_succ_self 1)).mp (Nat.lt_of_le_of_lt hle h)

theorem trail_le (id : Nat) {k : Nat} (hk : k ≤ e) : id * 2 ^ k ≤ id * 2 ^ e :=
  Nat.mul_le_mul_left id (Nat.pow_le_pow_right (by decide) hk)

theorem Wraps.stop_lt (h : Wraps id e count) (hcount : count ≤ 2 ^ 64) : id * 2 ^ (e + 1) - 2 ^ 64 < id * 2 ^ e := by
  have hlow := h.low
  have hthere := h.there
  rw [Nat.pow_succ, ← Nat.mul_assoc]
  omega

theorem Wraps.lt (h : Wraps id e count) (hcount : count ≤ 2 ^ 64) (hx : x ∈ trail id e) : x < count := by
  have hthere := h.there
  rcases mem_trail.mp hx with heq | ⟨k, hk, rfl⟩
  · rw [heq]
    exact Nat.lt_trans (h.stop_lt hcount) hthere
  · exact Nat.lt_of_le_of_lt (trail_le id hk) hthere

theorem Wraps.go (h : Wraps id e count) (hcount : count ≤ 2 ^ 64) (hx : x ∈ trail id e)
    (hstop : x ≠ id * 2 ^ (e + 1) - 2 ^ 64) :
    wordPick (fun y z => byteBefore y z = true) count (holed (trail id e) x) x ≠ x := by
  have hpulls : Pulls (trail id e) count x (word (x * 2)) := by
    obtain ⟨k, hk, rfl⟩ := (mem_trail.mp hx).resolve_left hstop
    have hpos : 0 < id * 2 ^ k := Nat.mul_pos h.pos (Nat.two_pow_pos k)
    have hdouble : id * 2 ^ k * 2 = id * 2 ^ (k + 1) := by rw [Nat.pow_succ, Nat.mul_assoc]
    rw [hdouble]
    rcases Nat.lt_or_eq_of_le hk with hlt | rfl
    · have hle := trail_le id (k := k + 1) hlt
      have hthere := h.there
      have hword : word (id * 2 ^ (k + 1)) = id * 2 ^ (k + 1) := Nat.mod_eq_of_lt (by omega)
      rw [hword]
      exact ⟨by omega, mem_trail.mpr (Or.inr ⟨k + 1, hlt, rfl⟩), by omega⟩
    · have hlow := h.low
      have hthere := h.there
      have hword : word (id * 2 ^ (k + 1)) = id * 2 ^ (k + 1) - 2 ^ 64 := by
        unfold word
        omega
      rw [hword]
      exact ⟨(h.stop_lt hcount).trans hthere, mem_trail.mpr (Or.inl rfl), Nat.ne_of_lt (h.stop_lt hcount)⟩
  rw [wordPick_holed, if_pos hpulls]
  exact hpulls.2.2

theorem ne_wrapped {u n : Nat} (hpos : 0 < u) (hlt : u < 2 ^ 64) : u ≠ u * 2 ^ (n + 2) - 2 ^ 64 := by
  intro heq
  have heven : Even (2 ^ (n + 2)) := ⟨2 ^ (n + 1), by rw [Nat.pow_succ, Nat.mul_two]⟩
  have hodd : Odd (2 ^ (n + 2) - 1) := Nat.Even.sub_odd Nat.one_le_two_pow heven odd_one
  have hcoprime : Nat.Coprime (2 ^ 64) (2 ^ (n + 2) - 1) := Nat.Coprime.pow_left 64 (Nat.coprime_two_left.mpr hodd)
  have hprod : 2 ^ 64 = u * (2 ^ (n + 2) - 1) := by
    rw [Nat.mul_sub, Nat.mul_one]
    omega
  have hdvd : 2 ^ 64 ∣ u := hcoprime.dvd_of_dvd_mul_right (Dvd.intro 1 (by rw [Nat.mul_one]; exact hprod))
  exact absurd (Nat.le_of_dvd hpos hdvd) (Nat.not_le.mpr hlt)

theorem Wraps.not_below (h : Wraps id e count) (hcount : count ≤ 2 ^ 64) : ¬ Below id (id * 2 ^ (e + 1) - 2 ^ 64) := by
  intro hbelow
  obtain ⟨f, hf⟩ := below_iff.mp hbelow
  have hthere := h.there
  have hstop := h.stop_lt hcount
  have hle : id * 2 ^ f ≤ id * 2 ^ (e + 1) - 2 ^ 64 := by
    conv_lhs => rw [← hf]
    exact Nat.div_mul_le_self _ _
  have hfe : f < e := by
    by_contra hge
    have := Nat.mul_le_mul_left id (Nat.pow_le_pow_right (n := 2) (by decide) (Nat.le_of_not_lt hge))
    omega
  have he : e < 64 := exponent_lt h.pos (by omega)
  -- The wrapped index ends in more zeros than there are below `id`, so it is on the leftmost path.
  have hdvd : 2 ^ f ∣ id * 2 ^ (e + 1) - 2 ^ 64 := by
    apply Nat.dvd_sub
    · exact (Nat.pow_dvd_pow 2 (by omega)).trans (Nat.dvd_mul_left _ _)
    · exact Nat.pow_dvd_pow 2 (by omega)
  have hleftmost : id * 2 ^ f = id * 2 ^ (e + 1) - 2 ^ 64 := by
    conv_lhs => rw [← hf]
    exact Nat.div_mul_cancel hdvd
  obtain ⟨n, rfl⟩ := Nat.exists_eq_add_of_lt hfe
  have hsplit : id * 2 ^ (f + n + 1 + 1) = id * 2 ^ f * 2 ^ (n + 2) := by
    rw [Nat.mul_assoc, ← Nat.pow_add]
    rfl
  rw [hsplit] at hleftmost
  exact ne_wrapped (Nat.mul_pos h.pos (Nat.two_pow_pos f)) (by omega) hleftmost

theorem half_mem_trail (hx : x ∈ trail id e) (hstop : x ≠ id * 2 ^ (e + 1) - 2 ^ 64) (hid : x ≠ id) :
    x / 2 ∈ trail id e := by
  obtain ⟨k, hk, rfl⟩ := (mem_trail.mp hx).resolve_left hstop
  cases k with
  | zero => exact absurd (Nat.mul_one id) hid
  | succ k =>
    refine mem_trail.mpr (Or.inr ⟨k, Nat.le_of_succ_le hk, ?_⟩)
    rw [Nat.pow_succ, ← Nat.mul_assoc, Nat.mul_div_cancel _ (by decide)]

end Trail

section

variable {elementSize total count id e : Nat}

theorem not_heapifies_of_wraps (htotal : total < 2 ^ 64) (hcount : count ≤ total) (h : Wraps id e count) :
    ¬ Heapifies 1 total count id := by
  intro hall
  have hsmall : count ≤ 2 ^ 64 := by omega
  have hstop := h.not_below hsmall
  have hin : id * 2 ^ (e + 1) - 2 ^ 64 ∈ trail id e := mem_trail.mpr (Or.inl rfl)
  have hstart : id ∈ trail id e := mem_trail.mpr (Or.inr ⟨0, Nat.zero_le e, by rw [Nat.pow_zero, Nat.mul_one]⟩)
  have hholds := holedMemory_holds (trail id e) id 4096 (Nat.le_of_lt htotal)
  have hheap : ∀ j, 0 < j → j < count → Below id (j / 2) → j / 2 ≠ id →
      ¬ byteBefore (content (holedMemory (trail id e) id 4096) 4096 1 (j / 2))
        (content (holedMemory (trail id e) id 4096) 4096 1 j) = true := by
    intro j hpos hj hbelow hne
    rw [hholds.elements (j / 2) (by omega), hholds.elements j (by omega), byteBefore_holed]
    rintro ⟨hparent, hchild, hid⟩
    apply hparent ⟨half_mem_trail hchild _ hid, hne⟩
    intro heq
    rw [← heq] at hstop
    exact hstop (Below.child hpos hbelow)
  obtain ⟨fuel, m', hret, -, σ, hmoved, hcontent⟩ :=
    hall byteCallbacks _ 4096 0 byteBefore (byteCallbacks_works _ 4096 0 (Nat.le_of_lt htotal)) byteBefore_strictWeak hheap
  obtain ⟨hend, -⟩ := heapify_hole _ (Nat.le_of_lt htotal) hcount (fun x hx => Nat.lt_of_lt_of_le (h.lt hsmall hx) hcount)
    (fun x hx => h.go hsmall hx) hstart hholds hret
  -- The element at the wrapped index has changed.
  have hlt := Nat.lt_of_lt_of_le (h.lt hsmall hin) hcount
  have hfix : σ (id * 2 ^ (e + 1) - 2 ^ 64) = id * 2 ^ (e + 1) - 2 ^ 64 := by
    by_contra hne
    exact hstop (hmoved _ hne).1
  have hsame := hcontent _ hlt
  rw [hend.elements _ hlt, hfix, hholds.elements _ hlt, holed_self] at hsame
  unfold holed at hsame
  rw [if_pos ⟨hin, fun heq => hstop (by rw [heq]; exact Below.self)⟩] at hsame
  exact absurd hsame (by decide)

/-- From node 0 the hole goes round for ever. -/
theorem heapify_zero_none (htotal : total < 2 ^ 64) (hcount : count ≤ total) (hwraps : 2 ^ 63 < count)
    (trg p : BitVec 64) (fuel : Nat) : heapify byteCallbacks trg 1 p fuel 0 count (holedMemory (trail 1 63) 0 trg) = none := by
  have h : Wraps 1 63 count := ⟨by decide, by decide, by omega⟩
  have hsmall : count ≤ 2 ^ 64 := by omega
  have hpulls : Pulls (trail 1 63) count 0 (word (word (0 * 2) + 1)) :=
    ⟨show 1 < count by omega, mem_trail.mpr (Or.inr ⟨0, by decide, rfl⟩), by decide⟩
  by_contra hret
  obtain ⟨m', hm'⟩ := Option.ne_none_iff_exists'.mp hret
  obtain ⟨-, hend⟩ := heapify_hole 0 (Nat.le_of_lt htotal) hcount
    (fun x hx => Nat.lt_of_lt_of_le (h.lt hsmall hx) hcount) (fun x hx => h.go hsmall hx)
    (mem_trail.mpr (Or.inl rfl)) (holedMemory_holds _ 0 trg (Nat.le_of_lt htotal)) hm'
  rw [wordPick_holed, if_neg fun hself => hself.2.2 rfl, if_pos hpulls] at hend
  exact absurd hend (by decide)

theorem not_heapifies_zero (htotal : total < 2 ^ 64) (hcount : count ≤ total) (hwraps : 2 ^ 63 < count) :
    ¬ Heapifies 1 total count 0 := by
  intro hall
  have hholds := holedMemory_holds (trail 1 63) 0 4096 (Nat.le_of_lt htotal)
  have hheap : ∀ j, 0 < j → j < count → Below 0 (j / 2) → j / 2 ≠ 0 →
      ¬ byteBefore (content (holedMemory (trail 1 63) 0 4096) 4096 1 (j / 2))
        (content (holedMemory (trail 1 63) 0 4096) 4096 1 j) = true := by
    intro j hpos hj _ hne
    rw [hholds.elements (j / 2) (by omega), hholds.elements j (by omega), byteBefore_holed]
    rintro ⟨hparent, hchild, hj0⟩
    exact hparent ⟨half_mem_trail hchild hj0 (by omega), hne⟩
  obtain ⟨fuel, m', hret, -⟩ :=
    hall byteCallbacks _ 4096 0 byteBefore (byteCallbacks_works _ 4096 0 (Nat.le_of_lt htotal)) byteBefore_strictWeak hheap
  rw [heapify_zero_none htotal hcount hwraps] at hret
  exact absurd hret (by simp)

/-- `Heapify` restores the heap below `id` exactly if the children of no node of the subtree have wrapped indices. -/
theorem heapifies_iff (hsize : 0 < elementSize) (harray : total * elementSize < 2 ^ 64) (hcount : count ≤ total)
    (hid : id < count) : Heapifies elementSize total count id ↔ ∀ j, Below id j → j < count → j < 2 ^ 63 := by
  constructor
  · intro hall j hbelow hj
    by_contra hge
    have hbyte : elementSize = 1 := by
      have := Nat.mul_le_mul_right elementSize (show 2 ^ 63 ≤ total by omega)
      omega
    subst hbyte
    rw [Nat.mul_one] at harray
    rcases Nat.eq_zero_or_pos id with rfl | hpos
    · exact not_heapifies_zero harray hcount (by omega) hall
    · obtain ⟨e, he⟩ := below_iff.mp hbelow
      have hle : id * 2 ^ e ≤ j := by
        rw [← he]
        exact Nat.div_mul_le_self j _
      have hexp : e < 64 := exponent_lt hpos (by omega)
      have hlow : 2 ^ 63 ≤ id * 2 ^ e := by
        have hquotient : 2 ^ (63 - e) ≤ id := by
          rw [← he, Nat.le_div_iff_mul_le (Nat.two_pow_pos e), ← Nat.pow_add, Nat.sub_add_cancel (by omega)]
          omega
        calc 2 ^ 63 = 2 ^ (63 - e) * 2 ^ e := by rw [← Nat.pow_add, Nat.sub_add_cancel (by omega)]
          _ ≤ id * 2 ^ e := Nat.mul_le_mul_right _ hquotient
      exact not_heapifies_of_wraps harray hcount ⟨hpos, hlow, by omega⟩ hall
  · exact heapifies_of_small hcount hid

end

theorem heapifies_three : Heapifies 1 3 3 0 :=
  (heapifies_iff (by decide) (by decide) (by decide) (by decide)).mpr fun j _ hj => by omega

/-- In `2 ^ 63 + 1` bytes the last node has the node 0 on its left. -/
theorem heapifies_fails : ¬ Heapifies 1 (2 ^ 63 + 1) (2 ^ 63 + 1) (2 ^ 63) :=
  not_heapifies_of_wraps (e := 0) (by decide) (Nat.le_refl _) ⟨by decide, by decide, by decide⟩

end GenericOs.Heapsort
