import GenericOs.Acpi.Find

/-!
# The latency table

`SLITToLatencyTable` goes through `MAX_NUMAS` rows of the SLIT, however many the SLIT has.
-/

namespace GenericOs.Acpi

open Bytes

section

variable (m : Memory 64) (slit : Option (BitVec 64)) (arenas : Nat → BitVec 64) (arenaID : BitVec 64)

/-- The matrix of the SLIT: row after row, as many rows and columns as there are localities. -/
def matrix (slit : BitVec 64) : Set (BitVec 64) :=
  window (slit + BitVec.ofNat 64 offsetSLITEntries) ((localities m slit).toNat * (localities m slit).toNat)

/-- The SLIT has a byte for the pair. -/
def HasPair (slit : BitVec 64) (i j : Nat) : Prop := i < (localities m slit).toNat ∧ j < (localities m slit).toNat

/-- The byte for the pair. -/
def pairByte (slit : BitVec 64) (i j : Nat) : BitVec 8 :=
  m.byte (slit + BitVec.ofNat 64 offsetSLITEntries + BitVec.ofNat 64 (i * (localities m slit).toNat + j))

/-- The SLIT marks the pair unreachable. -/
def Unreachable (i : Nat) : Prop :=
  ∃ table, slit = some table ∧ HasPair m table i arenaID.toNat ∧ pairByte m table i arenaID.toNat = 255

/-- The latency of the pair is `latency`. -/
def HasLatency (i : Nat) (latency : BitVec 8) : Prop :=
  match slit with
  | none => latency = if i = arenaID.toNat then 10 else 30
  | some table => HasPair m table i arenaID.toNat ∧ latency = pairByte m table i arenaID.toNat

/-- The entries of `s` are for the domains below `n` with an arena that can be reached, in increasing order. -/
structure Lists (out : Nat → NUMALatency) (n : Nat) (s : LatencyState) : Prop where
  sorted : ∀ k l, k < l → l < s.pos → (s.out k).proximityDomain < (s.out l).proximityDomain
  domains : ∀ i, (∃ k < s.pos, (s.out k).proximityDomain.toNat = i) ↔
    i < n ∧ arenas i ≠ 0 ∧ ¬ Unreachable m slit arenaID i
  entries : ∀ k < s.pos, (s.out k).arena = arenas (s.out k).proximityDomain.toNat ∧
    HasLatency m slit arenaID (s.out k).proximityDomain.toNat (s.out k).latency
  rest : ∀ k, s.pos ≤ k → s.out k = out k
  reads : ∀ a ∈ s.reads, ∃ table, slit = some table ∧ a ∈ matrix m table

end

section

variable {m : Memory 64} {slit : Option (BitVec 64)} {table xsdp arenaID : BitVec 64} {arenas : Nat → BitVec 64}
  {out : Nat → NUMALatency} {s : LatencyState} {i j n : Nat}

theorem slitEntry_eq : slitEntry table (BitVec.ofNat 64 i * localities m table + arenaID) =
    table + BitVec.ofNat 64 offsetSLITEntries + BitVec.ofNat 64 (i * (localities m table).toNat + arenaID.toNat) := by
  unfold slitEntry
  rw [BitVec.ofNat_add, BitVec.ofNat_mul, BitVec.ofNat_toNat, BitVec.ofNat_toNat, BitVec.setWidth_eq,
    BitVec.setWidth_eq]

theorem HasPair.index_lt (h : HasPair m table i j) :
    i * (localities m table).toNat + j < (localities m table).toNat * (localities m table).toNat := by
  obtain ⟨hi, hj⟩ := h
  calc i * (localities m table).toNat + j < i * (localities m table).toNat + (localities m table).toNat := by omega
    _ = (i + 1) * (localities m table).toNat := (Nat.succ_mul _ _).symm
    _ ≤ (localities m table).toNat * (localities m table).toNat := Nat.mul_le_mul_right _ hi

theorem HasPair.mem_matrix (h : HasPair m table i arenaID.toNat) :
    slitEntry table (BitVec.ofNat 64 i * localities m table + arenaID) ∈ matrix m table := by
  rw [slitEntry_eq]
  exact mem_window_add h.index_lt

theorem row_not_mem_matrix (hi : (localities m table).toNat ≤ i)
    (hsmall : i * (localities m table).toNat + arenaID.toNat < 2 ^ 64) :
    slitEntry table (BitVec.ofNat 64 i * localities m table + arenaID) ∉ matrix m table := by
  rw [slitEntry_eq]
  unfold matrix window
  rw [Set.mem_ofPred_eq, offset_toNat, Nat.mod_eq_of_lt hsmall]
  have := Nat.mul_le_mul_right (localities m table).toNat hi
  omega

/-! ## One round of the loop -/

/-- A round that skips its domain, which has no arena or cannot be reached. -/
theorem Lists.skip (h : Lists m slit arenas arenaID out n s) {reads : List (BitVec 64)}
    (hskip : arenas n = 0 ∨ Unreachable m slit arenaID n)
    (hreads : ∀ a ∈ reads, ∃ table, slit = some table ∧ a ∈ matrix m table) :
    Lists m slit arenas arenaID out (n + 1) { s with reads := reads } := by
  refine ⟨h.sorted, fun i => ?_, h.entries, h.rest, hreads⟩
  rw [h.domains]
  constructor
  · rintro ⟨hi, hwanted⟩
    exact ⟨by omega, hwanted⟩
  · rintro ⟨hi, hne, hreach⟩
    rcases Nat.lt_succ_iff_lt_or_eq.mp hi with hlt | rfl
    · exact ⟨hlt, hne, hreach⟩
    · rcases hskip with hzero | hmarked
      · exact absurd hzero hne
      · exact absurd hmarked hreach

/-- A round that appends an entry for its domain. -/
theorem Lists.push (h : Lists m slit arenas arenaID out n s) {reads : List (BitVec 64)} {latency : BitVec 8}
    (hn : n < maxNumas) (hne : arenas n ≠ 0) (hreach : ¬ Unreachable m slit arenaID n)
    (hlatency : HasLatency m slit arenaID n latency)
    (hreads : ∀ a ∈ reads, ∃ table, slit = some table ∧ a ∈ matrix m table) :
    Lists m slit arenas arenaID out (n + 1)
      (LatencyState.push { s with reads := reads } ⟨BitVec.ofNat 32 n, latency, arenas n⟩) := by
  have hdomain : (BitVec.ofNat 32 n).toNat = n := by
    rw [BitVec.toNat_ofNat]
    exact Nat.mod_eq_of_lt (hn.trans (by decide))
  -- The entries before are as they were.
  have hold : ∀ k, k ≠ s.pos → Function.update s.out s.pos ⟨BitVec.ofNat 32 n, latency, arenas n⟩ k = s.out k :=
    fun k hk => Function.update_of_ne hk _ _
  have hnew : Function.update s.out s.pos ⟨BitVec.ofNat 32 n, latency, arenas n⟩ s.pos =
      ⟨BitVec.ofNat 32 n, latency, arenas n⟩ := Function.update_self _ _ _
  have hbelow : ∀ k < s.pos, (s.out k).proximityDomain.toNat < n := fun k hk => ((h.domains _).mp ⟨k, hk, rfl⟩).1
  unfold LatencyState.push
  constructor
  · intro k l hkl hl
    dsimp only at hl ⊢
    rw [hold k (by omega)]
    rcases Nat.lt_succ_iff_lt_or_eq.mp hl with hlt | rfl
    · rw [hold l (by omega)]
      exact h.sorted k l hkl hlt
    · rw [hnew]
      exact BitVec.lt_def.mpr (by rw [hdomain]; exact hbelow k hkl)
  · intro i
    dsimp only
    constructor
    · rintro ⟨k, hk, rfl⟩
      rcases Nat.lt_succ_iff_lt_or_eq.mp hk with hlt | rfl
      · rw [hold k (by omega)]
        obtain ⟨hi, hwanted⟩ := (h.domains _).mp ⟨k, hlt, rfl⟩
        exact ⟨by omega, hwanted⟩
      · rw [hnew, hdomain]
        exact ⟨Nat.lt_succ_self n, hne, hreach⟩
    · rintro ⟨hi, hwanted⟩
      rcases Nat.lt_succ_iff_lt_or_eq.mp hi with hlt | rfl
      · obtain ⟨k, hk, hdom⟩ := (h.domains i).mpr ⟨hlt, hwanted⟩
        refine ⟨k, by omega, ?_⟩
        rw [hold k (by omega)]
        exact hdom
      · refine ⟨s.pos, Nat.lt_succ_self _, ?_⟩
        rw [hnew]
        exact hdomain
  · intro k hk
    dsimp only at hk ⊢
    rcases Nat.lt_succ_iff_lt_or_eq.mp hk with hlt | rfl
    · rw [hold k (by omega)]
      exact h.entries k hlt
    · rw [hnew, hdomain]
      exact ⟨rfl, hlatency⟩
  · intro k hk
    dsimp only at hk ⊢
    rw [hold k (by omega)]
    exact h.rest k (by omega)
  · exact hreads

theorem latencyStep_lists (h : Lists m slit arenas arenaID out n s) (hn : n < maxNumas)
    (hpair : arenas n ≠ 0 → ∀ table, slit = some table → HasPair m table n arenaID.toNat) :
    Lists m slit arenas arenaID out (n + 1) (latencyStep m slit arenas arenaID s n) := by
  unfold latencyStep
  split
  · next hzero => exact h.skip (Or.inl hzero) h.reads
  · next hne =>
    cases slit with
    | none =>
      apply h.push hn hne (by rintro ⟨_, hnone, -⟩; exact absurd hnone (by simp)) _ h.reads
      have hiff : arenaID = BitVec.ofNat 64 n ↔ n = arenaID.toNat := by
        rw [← BitVec.toNat_inj, BitVec.toNat_ofNat, Nat.mod_eq_of_lt (hn.trans (by decide)), eq_comm]
      exact if_congr hiff rfl rfl
    | some table =>
      have hhas := hpair hne table rfl
      have hreads : ∀ a ∈ s.reads ++ [slitEntry table (BitVec.ofNat 64 n * localities m table + arenaID)],
          ∃ table', some table = some table' ∧ a ∈ matrix m table' := by
        intro a ha
        rcases List.mem_append.mp ha with hold | hnew
        · exact h.reads a hold
        · rw [List.mem_singleton.mp hnew]
          exact ⟨table, rfl, hhas.mem_matrix⟩
      have hbyte : m.byte (slitEntry table (BitVec.ofNat 64 n * localities m table + arenaID)) =
          pairByte m table n arenaID.toNat := by
        rw [slitEntry_eq]
        rfl
      dsimp only
      rw [hbyte]
      split
      · next hmarked => exact h.skip (Or.inr ⟨table, rfl, hhas, hmarked⟩) hreads
      · next hreach =>
        apply h.push hn hne _ ⟨hhas, rfl⟩ hreads
        rintro ⟨table', hsome, -, hmarked⟩
        obtain rfl := Option.some.inj hsome
        exact hreach hmarked

/-! ## The loop -/

theorem latencyLoop_lists (hn : n ≤ maxNumas)
    (hpair : ∀ i < n, arenas i ≠ 0 → ∀ table, slit = some table → HasPair m table i arenaID.toNat) :
    Lists m slit arenas arenaID out n ((List.range n).foldl (latencyStep m slit arenas arenaID) ⟨out, 0, []⟩) := by
  induction n with
  | zero =>
    refine ⟨fun k l _ hl => absurd hl (Nat.not_lt_zero l), fun i => ?_, fun k hk => absurd hk (Nat.not_lt_zero k),
      fun _ _ => rfl, fun a ha => absurd ha List.not_mem_nil⟩
    constructor
    · rintro ⟨k, hk, -⟩
      exact absurd hk (Nat.not_lt_zero k)
    · rintro ⟨hi, -⟩
      exact absurd hi (Nat.not_lt_zero i)
  | succ n ih =>
    rw [List.range_succ, List.foldl_append]
    apply latencyStep_lists _ hn (hpair n (Nat.lt_succ_self n))
    exact ih (Nat.le_of_succ_le hn) fun i hi => hpair i (Nat.lt_succ_of_lt hi)

theorem latencyStep_reads (i : Nat) :
    (∀ a ∈ s.reads, a ∈ (latencyStep m (some table) arenas arenaID s i).reads) ∧
      (arenas i ≠ 0 → slitEntry table (BitVec.ofNat 64 i * localities m table + arenaID) ∈
        (latencyStep m (some table) arenas arenaID s i).reads) := by
  unfold latencyStep LatencyState.push
  dsimp only
  split
  · next hzero => exact ⟨fun _ ha => ha, fun hne => absurd hzero hne⟩
  · split <;>
      exact ⟨fun _ ha => List.mem_append_left _ ha, fun _ => List.mem_append_right _ (List.mem_singleton_self _)⟩

theorem latencyLoop_reads (hi : i < n) (hne : arenas i ≠ 0) :
    slitEntry table (BitVec.ofNat 64 i * localities m table + arenaID) ∈
      ((List.range n).foldl (latencyStep m (some table) arenas arenaID) s).reads := by
  induction n with
  | zero => exact absurd hi (Nat.not_lt_zero i)
  | succ n ih =>
    rw [List.range_succ, List.foldl_append]
    rcases Nat.lt_succ_iff_lt_or_eq.mp hi with hlt | rfl
    · exact (latencyStep_reads n).1 _ (ih hlt)
    · exact (latencyStep_reads i).2 hne

/-- The latency table is right exactly if the SLIT has a byte for every domain with an arena. -/
theorem slitToLatencyTable_lists_iff (hID : arenaID.toNat < maxNumas)
    (hmatrix : ∀ table, findACPITable m (xsdtAddress m xsdp) slitSignature = some table →
      offsetSLITEntries + (localities m table).toNat * (localities m table).toNat ≤ (length m table).toNat) :
    Lists m (findACPITable m (xsdtAddress m xsdp) slitSignature) arenas arenaID out maxNumas
        (slitToLatencyTable m xsdp out arenas arenaID) ↔
      ∀ table, findACPITable m (xsdtAddress m xsdp) slitSignature = some table →
        ∀ i < maxNumas, arenas i ≠ 0 → HasPair m table i arenaID.toNat := by
  unfold slitToLatencyTable
  dsimp only
  generalize findACPITable m (xsdtAddress m xsdp) slitSignature = slit at *
  constructor
  · rintro h table rfl i hi hne
    have hlength : (length m table).toNat < 2 ^ 32 := (length m table).isLt
    have hsquare := hmatrix table rfl
    have hle : (localities m table).toNat ≤ (localities m table).toNat * (localities m table).toNat := Nat.le_mul_self _
    by_contra hpair
    rcases Nat.lt_or_ge i (localities m table).toNat with hrow | hrow
    · -- The row is there, but the byte read is for another pair.
      have hreach : ¬ Unreachable m (some table) arenaID i := by
        rintro ⟨table', hsome, hhas, -⟩
        obtain rfl := Option.some.inj hsome
        exact hpair hhas
      obtain ⟨k, hk, hdomain⟩ := (h.domains i).mpr ⟨hi, hne, hreach⟩
      have hlatency := (h.entries k hk).2
      rw [hdomain] at hlatency
      exact hpair hlatency.1
    · have hsmall : i * (localities m table).toNat ≤ 64 * (localities m table).toNat :=
        Nat.mul_le_mul_right _ (Nat.le_of_lt hi)
      unfold maxNumas at hID
      obtain ⟨table', hsome, hmem⟩ := h.reads _ (latencyLoop_reads hi hne)
      obtain rfl := Option.some.inj hsome
      exact row_not_mem_matrix hrow (by omega) hmem
  · intro hpair
    exact latencyLoop_lists (Nat.le_refl _) fun i hi hne table htable => hpair table htable i hi hne

end

def slitBytes (length checksum localities : BitVec 8) (entries : List (BitVec 8)) : List (BitVec 8) :=
  [0x53, 0x4C, 0x49, 0x54, length, 0, 0, 0, 0, checksum] ++ List.replicate 26 0 ++
    [localities, 0, 0, 0, 0, 0, 0, 0] ++ entries

def twoArenas (i : Nat) : BitVec 64 := [0x100000, 0x200000].getD i 0

theorem twoArenas_lt {i : Nat} (h : twoArenas i ≠ 0) : i < 2 := by
  by_contra hge
  apply h
  unfold twoArenas
  rw [List.getD_eq_getElem?_getD, List.getElem?_eq_none (show 2 ≤ i by omega)]
  rfl

def pairMemory : Memory 64 := oneTableMemory (slitBytes 48 86 2 [10, 20, 20, 10])

def noLatency : Nat → NUMALatency := fun _ => ⟨0, 0, 0⟩

theorem slitToLatencyTable_lists_pair :
    Lists pairMemory (findACPITable pairMemory (xsdtAddress pairMemory 2048) slitSignature) twoArenas 0 noLatency
      maxNumas (slitToLatencyTable pairMemory 2048 noLatency twoArenas 0) := by
  have hfind : findACPITable pairMemory (xsdtAddress pairMemory 2048) slitSignature = some 8192 := by decide +kernel
  apply (slitToLatencyTable_lists_iff (by decide) _).mpr
  · intro table htable i _ hne
    obtain rfl : 8192 = table := Option.some.inj (hfind.symm.trans htable)
    have hlocalities : (localities pairMemory 8192).toNat = 2 := by decide +kernel
    unfold HasPair
    rw [hlocalities]
    exact ⟨twoArenas_lt hne, by decide⟩
  · intro table htable
    obtain rfl : 8192 = table := Option.some.inj (hfind.symm.trans htable)
    decide +kernel

def singleMemory : Memory 64 := oneTableMemory (slitBytes 45 140 1 [10])

/-- For the domain 1 the byte behind the only one of the matrix is read. -/
theorem slitToLatencyTable_lists_fails :
    findACPITable singleMemory (xsdtAddress singleMemory 2048) slitSignature = some 8192 ∧
      (length singleMemory 8192).toNat = offsetSLITEntries + 1 ∧ localities singleMemory 8192 = 1 ∧
      8192 + 45 ∈ (slitToLatencyTable singleMemory 2048 noLatency twoArenas 0).reads ∧
      8192 + 45 ∉ matrix singleMemory 8192 ∧
      ¬ Lists singleMemory (some 8192) twoArenas 0 noLatency maxNumas
        (slitToLatencyTable singleMemory 2048 noLatency twoArenas 0) := by
  have hfind : findACPITable singleMemory (xsdtAddress singleMemory 2048) slitSignature = some 8192 := by decide +kernel
  have hlocalities : localities singleMemory 8192 = 1 := by decide +kernel
  have haddress : slitEntry 8192 (BitVec.ofNat 64 1 * localities singleMemory 8192 + 0) = 8192 + 45 := by
    rw [hlocalities]
    decide
  have hread : 8192 + 45 ∈ (slitToLatencyTable singleMemory 2048 noLatency twoArenas 0).reads := by
    unfold slitToLatencyTable
    dsimp only
    rw [hfind, ← haddress]
    exact latencyLoop_reads (by decide) (by decide)
  have hout : 8192 + 45 ∉ matrix singleMemory 8192 := by
    rw [← haddress]
    apply row_not_mem_matrix <;> rw [hlocalities] <;> decide
  refine ⟨hfind, by decide +kernel, hlocalities, hread, hout, fun h => ?_⟩
  obtain ⟨table, hsome, hmem⟩ := h.reads _ hread
  obtain rfl := Option.some.inj hsome
  exact hout hmem

end GenericOs.Acpi
