import GenericOs.Library.Cursor
import GenericOs.MemoryMap.Code

/-!
# What `NextMemoryEntryWithin` goes through

`indices` are the entries that the loop does not skip. The cursor follows them, and where no
end of a range wraps they are the available entries that share a byte with the window.
-/

namespace GenericOs.MemoryMap

open Loader Cursor

def addresses (e : MemoryEntry) : Set Nat :=
  {x | e.begin.toNat ≤ x ∧ x < e.begin.toNat + e.pages.toNat * pageSize.toNat}

/-- The entry is available and shares a byte with the window of `length` bytes at `begin`. -/
structure Within (begin length : BitVec 64) (e : MemoryEntry) : Prop where
  available : e.type.getLsbD 0 = true
  shares : ∃ x ∈ addresses e, begin.toNat ≤ x ∧ x < begin.toNat + length.toNat

section

variable {begin length stop : BitVec 64} {map es : List MemoryEntry} {e : MemoryEntry} {n i : Nat}

/-- The loop stops at the entry. -/
def taken (begin stop : BitVec 64) (e : MemoryEntry) : Bool :=
  isMemoryEntryAvailable e && !(e.begin ≥ stop ∨ e.begin + e.pages.setWidth 64 * pageSize ≤ begin)

/-- The indices of the entries that the loop stops at, from the index `n` of the first one on. -/
def indices (begin stop : BitVec 64) : Nat → List MemoryEntry → List Nat
  | _, [] => []
  | n, e :: es => if taken begin stop e then n :: indices begin stop (n + 1) es else indices begin stop (n + 1) es

theorem nextLoop_cons : nextLoop begin stop n (e :: es) =
    if taken begin stop e then some n else nextLoop begin stop (n + 1) es := by
  rw [nextLoop, taken]
  cases isMemoryEntryAvailable e with
  | false => rfl
  | true =>
    by_cases hskip : e.begin ≥ stop ∨ e.begin + e.pages.setWidth 64 * pageSize ≤ begin
    · simp only [hskip, decide_true]
      rfl
    · simp only [hskip, decide_false]
      rfl

theorem mem_indices : i ∈ indices begin stop n es ↔ ∃ e, es[i - n]? = some e ∧ n ≤ i ∧ taken begin stop e = true := by
  induction es generalizing n with
  | nil => simp [indices]
  | cons e es ih =>
    have htail : (∃ e', (e :: es)[i - n]? = some e' ∧ n ≤ i ∧ taken begin stop e' = true) ↔
        (i = n ∧ taken begin stop e = true) ∨
          ∃ e', es[i - (n + 1)]? = some e' ∧ n + 1 ≤ i ∧ taken begin stop e' = true := by
      rcases Nat.lt_trichotomy i n with hlt | rfl | hgt
      · constructor
        · rintro ⟨_, -, hle, -⟩
          omega
        · rintro (⟨rfl, -⟩ | ⟨_, -, hle, -⟩) <;> omega
      · rw [Nat.sub_self, List.getElem?_cons_zero]
        constructor
        · rintro ⟨_, he, -, htaken⟩
          obtain rfl := Option.some.inj he
          exact Or.inl ⟨rfl, htaken⟩
        · rintro (⟨-, htaken⟩ | ⟨_, -, hle, -⟩)
          · exact ⟨e, rfl, Nat.le_refl _, htaken⟩
          · omega
      · rw [show i - n = i - (n + 1) + 1 by omega, List.getElem?_cons_succ]
        constructor
        · rintro ⟨e', he, -, htaken⟩
          exact Or.inr ⟨e', he, hgt, htaken⟩
        · rintro (⟨rfl, -⟩ | ⟨e', he, -, htaken⟩)
          · omega
          · exact ⟨e', he, Nat.le_of_lt hgt, htaken⟩
    rw [htail, ← ih, indices]
    split
    · next htaken => rw [List.mem_cons, and_iff_left htaken]
    · next hskip => rw [or_iff_right fun h => hskip h.2]

theorem indices_sorted : (indices begin stop n es).Pairwise (· < ·) := by
  induction es generalizing n with
  | nil => exact List.Pairwise.nil
  | cons e es ih =>
    rw [indices]
    split
    · rw [List.pairwise_cons]
      refine ⟨fun i hi => ?_, ih⟩
      obtain ⟨_, -, hle, -⟩ := mem_indices.mp hi
      exact hle
    · exact ih

theorem follows_indices {next : Option Nat → Option Nat} {c : Option Nat}
    (hnext : ∀ i, next (some i) = nextLoop begin stop (i + 1) (map.drop (i + 1)))
    (hes : es = map.drop n) (hc : next c = nextLoop begin stop n es) :
    Follows next none c ((indices begin stop n es).map some) := by
  induction es generalizing n c with
  | nil => exact hc
  | cons e es ih =>
    have htail : es = map.drop (n + 1) := by
      rw [← List.drop_drop, ← hes]
      rfl
    rw [nextLoop_cons] at hc
    rw [indices]
    split at hc
    · next htaken =>
      rw [if_pos htaken]
      exact ⟨hc, ih htail (by rw [hnext, htail])⟩
    · next hskip =>
      rw [if_neg hskip]
      exact ih htail hc

theorem isMemoryEntryAvailable_eq (e : MemoryEntry) : isMemoryEntryAvailable e = e.type.getLsbD 0 := by
  have hbits : ∀ t : BitVec 8, decide (t &&& 1 ≠ 0) = t.getLsbD 0 := by decide +kernel
  exact hbits e.type

theorem taken_iff (hlength : 0 < length.toNat) (hstop : begin.toNat + length.toNat < 2 ^ 64)
    (hpages : 0 < e.pages.toNat) (hend : e.begin.toNat + e.pages.toNat * pageSize.toNat < 2 ^ 64) :
    taken begin (begin + length) e = true ↔ Within begin length e := by
  have hmul : (e.pages.setWidth 64 * pageSize).toNat = e.pages.toNat * pageSize.toNat := by
    have hsmall : e.pages.toNat < 2 ^ 64 := by omega
    rw [BitVec.toNat_mul, BitVec.toNat_setWidth, Nat.mod_eq_of_lt hsmall, Nat.mod_eq_of_lt (by omega)]
  have hentryEnd : (e.begin + e.pages.setWidth 64 * pageSize).toNat =
      e.begin.toNat + e.pages.toNat * pageSize.toNat := by
    rw [BitVec.toNat_add_of_lt (by omega), hmul]
  have hwindow : (begin + length).toNat = begin.toNat + length.toNat := BitVec.toNat_add_of_lt hstop
  have hpos : 0 < e.pages.toNat * pageSize.toNat := Nat.mul_pos hpages (by decide)
  have hskip : (e.begin ≥ begin + length ∨ e.begin + e.pages.setWidth 64 * pageSize ≤ begin) ↔
      begin.toNat + length.toNat ≤ e.begin.toNat ∨ e.begin.toNat + e.pages.toNat * pageSize.toNat ≤ begin.toNat := by
    rw [← hwindow, ← hentryEnd]
    rfl
  unfold taken
  rw [Bool.and_eq_true, Bool.not_eq_true', decide_eq_false_iff_not, hskip, isMemoryEntryAvailable_eq]
  constructor
  · rintro ⟨hbit, hoverlap⟩
    -- The greater one of the two beginnings is in both ranges.
    rcases Nat.le_total e.begin.toNat begin.toNat with hle | hle
    · exact ⟨hbit, begin.toNat, ⟨hle, by omega⟩, Nat.le_refl _, by omega⟩
    · exact ⟨hbit, e.begin.toNat, ⟨Nat.le_refl _, by omega⟩, hle, by omega⟩
  · rintro ⟨hbit, x, ⟨hx, hx'⟩, hb, hb'⟩
    exact ⟨hbit, by omega⟩

/-- `NextMemoryEntryWithin` goes through the entries of the window in the order of the map, once in each round. -/
theorem nextMemoryEntryWithin_enumerates (hlength : 0 < length.toNat) (hstop : begin.toNat + length.toNat < 2 ^ 64)
    (hmap : ∀ e ∈ map, 0 < e.pages.toNat ∧ e.begin.toNat + e.pages.toNat * pageSize.toNat < 2 ^ 64) :
    ∃ is : List Nat, is.Pairwise (· < ·) ∧ (∀ i, i ∈ is ↔ ∃ e, map[i]? = some e ∧ Within begin length e) ∧
      Enumerates (nextMemoryEntryWithin begin length map) none (is.map some) := by
  refine ⟨indices begin (begin + length) 0 map, indices_sorted, fun i => ?_, ?_⟩
  · rw [mem_indices, Nat.sub_zero]
    apply exists_congr
    intro e
    rw [and_congr_right_iff]
    intro he
    obtain ⟨hpages, hend⟩ := hmap e (List.mem_of_getElem? he)
    rw [taken_iff hlength hstop hpages hend, and_iff_right (Nat.zero_le i)]
  · exact enumerates_of_follows (follows_indices (fun _ => rfl) (@List.drop_zero _ map).symm rfl)

end

/-- Two available ranges with one between them that is not. -/
def threeEntries : List MemoryEntry := [⟨4096, 2, 1⟩, ⟨12288, 1, 0⟩, ⟨16384, 4, 1⟩]

theorem nextMemoryEntryWithin_enumerates_three :
    ∃ is : List Nat, is.Pairwise (· < ·) ∧ (∀ i, i ∈ is ↔ ∃ e, threeEntries[i]? = some e ∧ Within 8192 8193 e) ∧
      Enumerates (nextMemoryEntryWithin 8192 8193 threeEntries) none (is.map some) :=
  nextMemoryEntryWithin_enumerates (by decide) (by decide) (by decide)

end GenericOs.MemoryMap
