import GenericOs.Library.Pool
import GenericOs.Library.Transition
import GenericOs.Slab.Blocks

/-!
# One CPU allocates from a slab while others free

`SLABFirst` loads the words of the bitmap one after the other, and `SLABSet` changes one word
atomically. Only the owner of the slab allocates, and all CPUs free. Memory is sequentially
consistent.
-/

namespace GenericOs.Slab.Concurrent

open Linearizable (Atomic Does IsLinearizable Phase)
open Pool (Op Step History Held Proper)
open Transition (System Reachable Steps)

variable {Cpu : Type}

/-- What a CPU does next: round `base` of the loop in `SLABFirst`, `SLABSet(p, false)` or
`SLABSet(p, true)`, or it returns. -/
inductive Pc where
  | idle
  | scan (base : Nat)
  | mark (p : Nat)
  | free (p : Nat)
  | done (op : Op Nat) (res : Option Nat)
  deriving DecidableEq

structure State (Cpu : Type) where
  mem : Memory
  pc : Cpu → Pc

inductive Act (Cpu : Type) where
  | call (u : Cpu) (op : Op Nat)
  | run (u : Cpu)
  deriving DecidableEq

/-- To take a block is `SLABFirst` and then `SLABSet`, to put it back is `SLABSet`. -/
def Pc.enter : Op Nat → Pc
  | .take => .scan 0
  | .put p => .free p

/-- One step of a CPU, which loads one word or changes one word. -/
def next (slab : Nat) (m : Memory) : Pc → Option (Memory × Pc)
  | .scan base => do
    let slot := bsf (← m.load (slab + offsetBitmap + 8 * base))
    if slot ≠ allOnes then return (m, .mark (slab + (slot + bitmapBits * base) * slabsMinAlloc))
    if base + 1 < slabsBitmapCount then return (m, .scan (base + 1))
    return (m, .done .take none)
  | .mark p => do return (← slabSet m p false, .done .take (some p))
  | .free p => do return (← slabSet m p true, .done (.put p) none)
  | .idle | .done .. => none

variable [DecidableEq Cpu]

/-- The state after a step, and what is seen of it. -/
def exec (slab : Nat) (s : State Cpu) : Act Cpu → Option (State Cpu × History Cpu Nat)
  | .call u op =>
    match s.pc u with
    | .idle => some ({ s with pc := Function.update s.pc u (.enter op) }, [.call u op])
    | _ => none
  | .run u =>
    match s.pc u with
    | .done op res => some ({ s with pc := Function.update s.pc u .idle }, [.ret u op res])
    | pc => do
      let (m, pc') ← next slab s.mem pc
      return ({ mem := m, pc := Function.update s.pc u pc' }, [])

/-- The slab is new and no CPU is at work on it. -/
structure Start (slab len : Nat) (s : State Cpu) : Prop where
  fresh : Fresh s.mem slab len
  idle : ∀ u, s.pc u = .idle

/-- The CPUs at work on one slab, and the history so far. -/
def cpus (slab len : Nat) : System (State Cpu × History Cpu Nat) (Act Cpu) where
  init x := Start slab len x.1 ∧ x.2 = []
  step x a x' := ∃ es, exec slab x.1 a = some (x'.1, es) ∧ x'.2 = x.2 ++ es

def execSeen (slab : Nat) (x : State Cpu × History Cpu Nat) (a : Act Cpu) : Option (State Cpu × History Cpu Nat) :=
  (exec slab x.1 a).map fun y => (y.1, x.2 ++ y.2)

/-- The owner alone takes blocks, and a block is put back by somebody who has it. -/
def Permitted (owner : Cpu) (x : State Cpu × History Cpu Nat) : Act Cpu → Prop
  | .call u .take => u = owner
  | .call _ (.put p) => Held x.2 p
  | .run _ => True

instance [Fintype Cpu] (owner : Cpu) (x : State Cpu × History Cpu Nat) : ∀ a, Decidable (Permitted owner x a)
  | .call u .take => inferInstanceAs (Decidable (u = owner))
  | .call _ (.put p) => inferInstanceAs (Decidable (Held x.2 p))
  | .run _ => .isTrue trivial

/-! ## The steps, one by one -/

inductive Next (slab : Nat) (m : Memory) : Pc → Memory → Pc → Prop
  | found {base slot : Nat} (hw : bsf (m.at (slab + offsetBitmap + 8 * base)) = slot) (hslot : slot ≠ allOnes) :
    Next slab m (.scan base) m (.mark (slab + (slot + bitmapBits * base) * slabsMinAlloc))
  | later {base : Nat} (hw : bsf (m.at (slab + offsetBitmap + 8 * base)) = allOnes)
    (hbase : base + 1 < slabsBitmapCount) : Next slab m (.scan base) m (.scan (base + 1))
  | none {base : Nat} (hw : bsf (m.at (slab + offsetBitmap + 8 * base)) = allOnes)
    (hbase : ¬base + 1 < slabsBitmapCount) : Next slab m (.scan base) m (.done .take none)
  | mark {p : Nat} {m' : Memory} (hset : slabSet m p false = some m') : Next slab m (.mark p) m' (.done .take (some p))
  | free {p : Nat} {m' : Memory} (hset : slabSet m p true = some m') : Next slab m (.free p) m' (.done (.put p) none)

inductive Moves (slab : Nat) (s : State Cpu) : Act Cpu → State Cpu → History Cpu Nat → Prop
  | call {u : Cpu} {op : Op Nat} (hpc : s.pc u = .idle) :
    Moves slab s (.call u op) { s with pc := Function.update s.pc u (.enter op) } [.call u op]
  | next {u : Cpu} {m : Memory} {pc : Pc} (hn : Next slab s.mem (s.pc u) m pc) :
    Moves slab s (.run u) { mem := m, pc := Function.update s.pc u pc } []
  | ret {u : Cpu} {op : Op Nat} {res : Option Nat} (hpc : s.pc u = .done op res) :
    Moves slab s (.run u) { s with pc := Function.update s.pc u .idle } [.ret u op res]

variable {slab len q base : ℕ} {m m' : Memory} {pc pc' : Pc} {F F' : Set ℕ} {s s' : State Cpu} {a : Act Cpu}
  {es h h' : History Cpu Nat} {owner u v : Cpu} {x x' : State Cpu × History Cpu Nat}

theorem execSeen_step (h : execSeen slab x a = some x') : (cpus slab len).step x a x' := by
  obtain ⟨⟨s', es⟩, hexec, rfl⟩ := Option.map_eq_some_iff.mp h
  exact ⟨es, hexec, rfl⟩

theorem next_moves (hs : IsPage slab) (h : next slab m pc = some (m', pc')) : Next slab m pc m' pc' := by
  cases pc with
  | idle => simp [next] at h
  | done => simp [next] at h
  | mark p =>
    obtain ⟨m₁, hset, h⟩ := Option.bind_eq_some_iff.mp h
    cases h
    exact .mark hset
  | free p =>
    obtain ⟨m₁, hset, h⟩ := Option.bind_eq_some_iff.mp h
    cases h
    exact .free hset
  | scan base =>
    unfold next at h
    simp only [word_load hs, Option.bind_eq_bind, Option.bind_some] at h
    split_ifs at h with hslot hbase
    · cases h
      exact .found rfl hslot
    · cases h
      exact .later (by simpa using hslot) hbase
    · cases h
      exact .none (by simpa using hslot) hbase

theorem exec_moves (hs : IsPage slab) (h : exec slab s a = some (s', es)) : Moves slab s a s' es := by
  cases a with
  | call u op =>
    unfold exec at h
    cases hpc : s.pc u with
    | idle =>
      simp only [hpc, Option.some.injEq, Prod.mk.injEq] at h
      obtain ⟨rfl, rfl⟩ := h
      exact .call hpc
    | _ => simp [hpc] at h
  | run u =>
    have hnext : ∀ pc, s.pc u = pc → ((next slab s.mem pc).bind fun y =>
        some (({ mem := y.1, pc := Function.update s.pc u y.2 } : State Cpu), ([] : History Cpu Nat))) = some (s', es) →
        Moves slab s (.run u) s' es := by
      rintro pc hpc hrun
      obtain ⟨⟨m, pc'⟩, hn, hrun⟩ := Option.bind_eq_some_iff.mp hrun
      cases hrun
      subst hpc
      exact .next (next_moves hs hn)
    unfold exec at h
    cases hpc : s.pc u with
    | done op res =>
      simp only [hpc, Option.some.injEq, Prod.mk.injEq] at h
      obtain ⟨rfl, rfl⟩ := h
      exact .ret hpc
    | idle | scan | mark | free =>
      simp only [hpc] at h
      exact hnext _ hpc h

/-! ## A CPU that is alone -/

/-- A CPU makes `k` steps and nobody else makes one. -/
def alone (slab : Nat) : Nat → Memory → Pc → Option (Memory × Pc)
  | 0, m, pc => some (m, pc)
  | k + 1, m, pc => do
    let (m, pc) ← next slab m pc
    alone slab k m pc

theorem alone_succ (k : ℕ) : alone slab (k + 1) m pc = (next slab m pc).bind fun y => alone slab k y.1 y.2 := rfl

theorem next_scan (hs : IsPage slab) : next slab m (.scan base) =
    if bsf (m.at (slab + offsetBitmap + 8 * base)) ≠ allOnes then
      some (m, .mark (slab + (bsf (m.at (slab + offsetBitmap + 8 * base)) + bitmapBits * base) * slabsMinAlloc))
    else if base + 1 < slabsBitmapCount then some (m, .scan (base + 1)) else some (m, .done .take none) := by
  simp only [next, word_load hs, Option.bind_eq_bind, Option.bind_some]
  rfl

/-- The rounds that `SLABFirst` makes are the steps of the scan. -/
theorem alone_scan (hs : IsPage slab) {left base slot slot' base' : ℕ} (hleft : 0 < left)
    (hbase : base + left = slabsBitmapCount) (hloop : slabFirstLoop m slab left base slot = some (slot', base')) :
    ∃ k ≤ left, alone slab k m (.scan base) = some (m,
      if slot' = allOnes then .done .take none else .mark (slab + (slot' + bitmapBits * base') * slabsMinAlloc)) := by
  induction left generalizing base slot with
  | zero => omega
  | succ left ih =>
    unfold slabFirstLoop at hloop
    simp only [word_load hs, Option.bind_eq_bind, Option.bind_some] at hloop
    split_ifs at hloop with hfound
    · cases hloop
      refine ⟨1, by omega, ?_⟩
      rw [alone_succ, next_scan hs, if_pos hfound, if_neg hfound]
      rfl
    · rw [not_not] at hfound
      rcases Nat.eq_zero_or_pos left with rfl | hpos
      · unfold slabFirstLoop at hloop
        cases hloop
        refine ⟨1, by omega, ?_⟩
        rw [alone_succ, next_scan hs, if_neg (not_not.mpr hfound), if_neg (by omega), if_pos hfound]
        rfl
      · obtain ⟨k, hk, hrun⟩ := ih hpos (by omega) hloop
        refine ⟨k + 1, by omega, ?_⟩
        rw [alone_succ, next_scan hs, if_neg (not_not.mpr hfound), if_pos (by omega)]
        exact hrun

theorem alone_add {k k' : ℕ} (h : alone slab k m pc = some (m', pc')) :
    alone slab (k + k') m pc = alone slab k' m' pc' := by
  induction k generalizing m pc with
  | zero =>
    cases h
    rw [Nat.zero_add]
  | succ k ih =>
    rw [alone_succ] at h
    obtain ⟨y, hy, h⟩ := Option.bind_eq_some_iff.mp h
    rw [Nat.add_right_comm, alone_succ, hy]
    exact ih h

/-- The steps of a CPU that nobody disturbs are an allocation as the code makes it. -/
theorem alone_allocate {p : ℕ} (hs : IsPage slab) (h : allocate m slab = some (p, m')) :
    ∃ k ≤ 5, alone slab k m (.scan 0) = some (m', .done .take (if p = 0 then none else some p)) := by
  obtain ⟨p₁, hfirst, h⟩ := Option.bind_eq_some_iff.mp h
  obtain ⟨⟨slot, base⟩, hloop, hp⟩ := Option.bind_eq_some_iff.mp hfirst
  obtain ⟨k, hk, hscan⟩ := alone_scan hs (by simp) (by simp) hloop
  have hnonnull := hs.nonnull
  simp only [slabsBitmapCount_val] at hk
  dsimp only at hp
  split_ifs at hp with hslot
  · cases hp
    rw [if_neg (by simp)] at h
    cases h
    rw [if_pos hslot] at hscan
    exact ⟨k, by omega, hscan⟩
  · cases hp
    rw [if_neg hslot] at hscan
    rw [if_pos (by omega)] at h
    obtain ⟨m₁, hset, h⟩ := Option.bind_eq_some_iff.mp h
    cases h
    refine ⟨k + 1, by omega, ?_⟩
    rw [alone_add hscan, alone_succ, if_neg (by omega)]
    simp only [next, hset]
    rfl

/-! ## The words of the bitmap and the free blocks -/

/-- A free block has its first slot in the word where all of it is. -/
theorem word_of_mem (h : Shown m slab len F) (hlen : IsSizeClass len) (hq : q ∈ F) :
    q / 1024 < slabsBitmapCount ∧ q % 16 = 0 ∧
      (m.at (slab + offsetBitmap + 8 * (q / 1024))).getLsbD (q / 16 % 64) = true := by
  have hA := aligned hlen (h.sub hq)
  have hslots := hA.slots
  have hfits := hA.fits
  have hi : q / 16 < slotCount := by simp only [slotCount_val]; omega
  have hbit : bit m slab (q / 16) = true := by
    rw [h.bit_iff hi]
    refine ⟨q, hq, ?_⟩
    simp only [coverAt, Set.mem_ofPred_eq, slabsMinAlloc_val]
    omega
  refine ⟨by simp only [slabsBitmapCount_val]; omega, hslots.1, ?_⟩
  rw [bit, bitmapBits_val, show q / 16 / 64 = q / 1024 by omega] at hbit
  exact hbit

/-- The lowest set bit of a word is the first slot of the lowest free block in it. -/
theorem word_found (h : Shown m slab len F) (hlen : IsSizeClass len) (hbase : base < slabsBitmapCount) {slot : ℕ}
    (hw : bsf (m.at (slab + offsetBitmap + 8 * base)) = slot) (hslot : slot ≠ allOnes) :
    ∃ q ∈ F, (slot + bitmapBits * base) * slabsMinAlloc = q ∧ ∀ q' ∈ F, 1024 * base ≤ q' → q ≤ q' := by
  have hlt : slot < 64 := by
    by_contra hge
    unfold bsf at hw
    cases hf : (List.range 64).find? fun i => (m.at (slab + offsetBitmap + 8 * base)).getLsbD i with
    | none => rw [hf] at hw; exact hslot hw.symm
    | some k =>
      have := List.mem_range.mp (List.mem_of_find?_eq_some hf)
      rw [hf] at hw
      simp only [Option.getD_some] at hw
      omega
  obtain ⟨hset, hlow⟩ := (bsf_eq_iff hlt).mp hw
  simp only [slabsBitmapCount_val] at hbase
  have hi : slot + 64 * base < slotCount := by simp only [slotCount_val]; omega
  have hbit : bit m slab (slot + 64 * base) = true := by
    rw [bit, bitmapBits_val, show (slot + 64 * base) / 64 = base by omega,
      show (slot + 64 * base) % 64 = slot by omega]
    exact hset
  obtain ⟨q, hq, hiq⟩ := (h.bit_iff hi).mp hbit
  have hA := aligned hlen (h.sub hq)
  have hword := hA.word
  simp only [coverAt, Set.mem_ofPred_eq, slabsMinAlloc_val] at hiq
  have hqbase : q / 1024 = base := by omega
  obtain ⟨-, hq16, hqset⟩ := word_of_mem h hlen hq
  -- The block begins at this slot: a lower slot of it would be a lower set bit.
  have hfirst : ¬q / 16 % 64 < slot := by
    intro hc
    rw [hqbase, hlow _ hc] at hqset
    cases hqset
  refine ⟨q, hq, ?_, fun q' hq' hq'base => ?_⟩
  · simp only [bitmapBits_val, slabsMinAlloc_val]
    omega
  · by_contra hc
    obtain ⟨-, hq'16, hq'set⟩ := word_of_mem h hlen hq'
    rw [show q' / 1024 = base by omega, hlow _ (by omega)] at hq'set
    cases hq'set

theorem word_none (h : Shown m slab len F) (hlen : IsSizeClass len)
    (hw : bsf (m.at (slab + offsetBitmap + 8 * base)) = allOnes) (hq : q ∈ F) : q / 1024 ≠ base := by
  rintro rfl
  obtain ⟨-, -, hset⟩ := word_of_mem h hlen hq
  rw [bsf_eq_allOnes.mp hw _ (Nat.mod_lt _ (by decide))] at hset
  cases hset

/-! ## The code and the atomic pool -/

/-- Pointers to the blocks at these offsets. -/
def pointers (slab : Nat) (F : Set ℕ) : Set ℕ := (slab + ·) '' F

theorem mem_pointers : slab + q ∈ pointers slab F ↔ q ∈ F := by simp [pointers]

theorem pointers_insert : pointers slab (insert q F) = insert (slab + q) (pointers slab F) := Set.image_insert_eq

theorem pointers_diff : pointers slab (F \ {q}) = pointers slab F \ {slab + q} := by
  unfold pointers
  rw [Set.image_sdiff (add_right_injective slab), Set.image_singleton]

/-- Where a CPU is in the atomic pool. -/
def Pc.phase : Pc → Phase (Op Nat) (Option Nat)
  | .idle => .idle
  | .scan _ => .called .take
  | .mark _ => .called .take
  | .free p => .called (.put p)
  | .done op res => .done op res

def phases (s : State Cpu) (u : Cpu) : Phase (Op Nat) (Option Nat) := (s.pc u).phase

theorem phases_update (m : Memory) : phases { mem := m, pc := Function.update s.pc u pc } =
    Function.update (phases s) u pc.phase := by
  funext v
  unfold phases
  by_cases hv : v = u
  · subst hv; simp
  · simp [hv]

/-- The pool could have answered null at the call, or it has a block in the words from `base` on. -/
def Open (slab len : Nat) (s : State Cpu) (h : History Cpu Nat) (F : Set ℕ) (u : Cpu) (base : Nat) : Prop :=
  Atomic Step (pointers slab (alignedBlocks len)) h (Function.update (phases s) u (.done .take none)) (pointers slab F) ∨
    ∃ q ∈ F, 1024 * base ≤ q

/-- The offsets `F` are free, and the atomic pool can have the same history and the same blocks. -/
structure Inv (slab len : Nat) (owner : Cpu) (s : State Cpu) (h : History Cpu Nat) (F : Set ℕ) : Prop where
  shown : Shown s.mem slab len F
  atomic : Atomic Step (pointers slab (alignedBlocks len)) h (phases s) (pointers slab F)
  proper : Proper h
  owner : ∀ u, phases s u = .called .take → u = owner
  scan : ∀ u base, s.pc u = .scan base → base < slabsBitmapCount ∧ Open slab len s h F u base
  mark : ∀ u p, s.pc u = .mark p → p ∈ pointers slab F

theorem Start.inv (hstart : Start slab len s) (hlen : IsSizeClass len) :
    Inv slab len owner s [] (alignedBlocks len) := by
  have hphases : phases s = fun _ => .idle := by
    funext u
    rw [phases, hstart.idle]
    rfl
  refine ⟨hstart.fresh.shown hlen, ?_, Pool.proper_nil, ?_, ?_, ?_⟩
  · rw [hphases]
    exact .init
  · simp [hphases]
  · simp [hstart.idle]
  · simp [hstart.idle]

/-- A step that the pool does not see. -/
theorem Inv.stutter (hI : Inv slab len owner s h F) (hphase : pc.phase = (s.pc u).phase)
    (hscan : ∀ base, pc = .scan base → base < slabsBitmapCount ∧ Open slab len s h F u base)
    (hmark : ∀ p, pc = .mark p → p ∈ pointers slab F) :
    Inv slab len owner { mem := s.mem, pc := Function.update s.pc u pc } h F := by
  have hphases : phases { mem := s.mem, pc := Function.update s.pc u pc } = phases s := by
    rw [phases_update, hphase]
    exact Function.update_eq_self ..
  refine ⟨hI.shown, by rw [hphases]; exact hI.atomic, hI.proper, by rw [hphases]; exact hI.owner, ?_, ?_⟩
  · intro v base hv
    unfold Open
    rw [hphases]
    simp only [Function.update_apply] at hv
    split_ifs at hv with hvu
    · subst hvu; exact hscan base hv
    · exact hI.scan v base hv
  · intro v p hv
    simp only [Function.update_apply] at hv
    split_ifs at hv with hvu
    · exact hmark p hv
    · exact hI.mark v p hv

/-- A step that the pool makes too. Only the owner takes blocks away from the others. -/
theorem Inv.does (hI : Inv slab len owner s h F) (hshown : Shown m slab len F')
    (hd : Does Step u h (s.pc u).phase (pointers slab F) h' pc.phase (pointers slab F')) (hproper : Proper h')
    (hgrow : F ⊆ F' ∨ u = owner) (howner : pc.phase = .called .take → u = owner)
    (hscan : ∀ base, pc = .scan base → base < slabsBitmapCount ∧
      Open slab len { mem := m, pc := Function.update s.pc u pc } h' F' u base)
    (hmark : ∀ p, pc ≠ .mark p) :
    Inv slab len owner { mem := m, pc := Function.update s.pc u pc } h' F' := by
  have hother : ∀ v, v ≠ u → phases s v = .called .take → F ⊆ F' := by
    intro v hvu hv
    rcases hgrow with hgrow | rfl
    · exact hgrow
    · exact absurd (hI.owner v hv) hvu
  refine ⟨hshown, ?_, hproper, ?_, ?_, ?_⟩
  · rw [phases_update]
    exact hI.atomic.does hd
  · intro v hv
    rw [phases_update] at hv
    simp only [Function.update_apply] at hv
    split_ifs at hv with hvu
    · rw [hvu]; exact howner hv
    · exact hI.owner v hv
  · intro v base hv
    simp only [Function.update_apply] at hv
    split_ifs at hv with hvu
    · rw [hvu]; exact hscan base hv
    · obtain ⟨hbase, hopen⟩ := hI.scan v base hv
      refine ⟨hbase, ?_⟩
      unfold Open
      rw [phases_update]
      rcases hopen with hnull | ⟨q, hq, hqbase⟩
      · exact Or.inl (hnull.does_beside hd (Ne.symm hvu))
      · exact Or.inr ⟨q, hother v hvu (by rw [phases, hv]; rfl) hq, hqbase⟩
  · intro v p hv
    simp only [Function.update_apply] at hv
    split_ifs at hv with hvu
    · exact absurd hv (hmark p)
    · exact Set.image_mono (hother v hvu (by rw [phases, hv]; rfl)) (hI.mark v p hv)

/-- If no block is free when the owner calls, then null is right from there on. -/
theorem Inv.call_take (hI : Inv slab len owner s h F) (hpc : s.pc owner = .idle) :
    Inv slab len owner { s with pc := Function.update s.pc owner (.scan 0) } (h ++ [.call owner .take]) F := by
  have hd : Does Step owner h (s.pc owner).phase (pointers slab F) (h ++ [.call owner .take])
      (Pc.scan 0).phase (pointers slab F) := by
    rw [hpc]
    exact .call
  refine hI.does hI.shown hd (hI.proper.concat (by simp)) (Or.inr rfl) (fun _ => rfl) ?_ (by simp)
  rintro base ⟨⟩
  refine ⟨by simp, ?_⟩
  rcases Set.eq_empty_or_nonempty F with rfl | ⟨q, hq⟩
  · left
    have hcalled := hI.atomic.does hd
    have hempty : Does Step owner (h ++ [.call owner .take]) (.called .take) (pointers slab ∅)
        (h ++ [.call owner .take]) (.done .take none) (pointers slab ∅) := by
      unfold pointers
      rw [Set.image_empty]
      exact .effect .empty
    have hnull := hcalled.does (t := owner) (by rw [Function.update_self]; exact hempty)
    rw [Function.update_idem] at hnull
    rw [phases_update, Function.update_idem]
    exact hnull
  · exact Or.inr ⟨q, hq, by omega⟩

theorem Inv.call_put {p : ℕ} (hI : Inv slab len owner s h F) (hpc : s.pc u = .idle) (hheld : Held h p) :
    Inv slab len owner { s with pc := Function.update s.pc u (.free p) } (h ++ [.call u (.put p)]) F := by
  refine hI.does hI.shown ?_ (hI.proper.concat ?_) (Or.inl subset_rfl) (by simp [Pc.phase]) (by simp) (by simp)
  · rw [hpc]
    exact .call
  · rintro v b ⟨⟩
    exact hheld

theorem Inv.ret {op : Op ℕ} {res : Option ℕ} (hI : Inv slab len owner s h F) (hpc : s.pc u = .done op res) :
    Inv slab len owner { s with pc := Function.update s.pc u .idle } (h ++ [.ret u op res]) F := by
  refine hI.does hI.shown ?_ (hI.proper.concat (by simp)) (Or.inl subset_rfl) (by simp [Pc.phase])
    (by simp) (by simp)
  rw [hpc]
  exact .ret

/-- What is about to be free was a block. -/
theorem Inv.free {p : ℕ} (hI : Inv slab len owner s h F) (hpc : s.pc u = .free p) :
    p ∈ pointers slab (alignedBlocks len) := by
  obtain ⟨place, hpl⟩ := Pool.exists_places hI.atomic hI.proper
  have hcoming := (hpl.coming p u).mpr (by rw [phases, hpc]; rfl)
  by_contra hno
  rw [(hpl.never p).mpr hno] at hcoming
  cases hcoming

theorem Inv.next (hI : Inv slab len owner s h F) (hs : IsPage slab) (hlen : IsSizeClass len)
    (hn : Next slab s.mem (s.pc u) m pc) :
    ∃ F', Inv slab len owner { mem := m, pc := Function.update s.pc u pc } h F' ∧
      (F ⊆ F' ∨ ∃ p, s.pc u = .mark p) := by
  generalize hpc : s.pc u = pc₀ at hn
  cases hn with
  | @found base slot hw hslot =>
    obtain ⟨hbase, -⟩ := hI.scan u base hpc
    obtain ⟨q, hq, hslotq, -⟩ := word_found hI.shown hlen hbase hw hslot
    refine ⟨F, hI.stutter (by rw [hpc]; rfl) (by simp) ?_, Or.inl subset_rfl⟩
    rintro p ⟨⟩
    rw [hslotq]
    exact mem_pointers.mpr hq
  | @later base hw hnext =>
    obtain ⟨-, hopen⟩ := hI.scan u base hpc
    refine ⟨F, hI.stutter (by rw [hpc]; rfl) ?_ (by simp), Or.inl subset_rfl⟩
    rintro base' ⟨⟩
    refine ⟨hnext, ?_⟩
    rcases hopen with hnull | ⟨q, hq, hqbase⟩
    · exact Or.inl hnull
    · have hne := word_none hI.shown hlen hw hq
      exact Or.inr ⟨q, hq, by omega⟩
  | @none base hw hlast =>
    obtain ⟨hbase, hopen⟩ := hI.scan u base hpc
    have howner := hI.owner u (by rw [phases, hpc]; rfl)
    rcases hopen with hnull | ⟨q, hq, hqbase⟩
    · -- The answer of the pool was null at the call.
      refine ⟨F, ⟨hI.shown, by rw [phases_update]; exact hnull, hI.proper, ?_, ?_, ?_⟩, Or.inl subset_rfl⟩
      · intro v hv
        rw [phases_update] at hv
        simp only [Function.update_apply, Pc.phase] at hv
        split_ifs at hv with hvu
        exact hI.owner v hv
      · intro v base' hv
        simp only [Function.update_apply] at hv
        split_ifs at hv with hvu
        have := hI.owner v (by rw [phases, hv]; rfl)
        exact absurd (this.trans howner.symm) hvu
      · intro v p hv
        simp only [Function.update_apply] at hv
        split_ifs at hv with hvu
        exact hI.mark v p hv
    · have hne := word_none hI.shown hlen hw hq
      obtain ⟨hlt, -⟩ := word_of_mem hI.shown hlen hq
      simp only [slabsBitmapCount_val] at *
      omega
  | @mark p _ hset =>
    obtain ⟨q, hq, rfl⟩ := hI.mark u p hpc
    obtain ⟨m', hset', h'⟩ := hI.shown.take hs hlen hq
    rw [hset] at hset'
    cases hset'
    have howner := hI.owner u (by rw [phases, hpc]; rfl)
    refine ⟨F \ {q}, hI.does h' ?_ hI.proper (Or.inr howner) (by simp [Pc.phase]) (by simp) (by simp), Or.inr ⟨_, rfl⟩⟩
    rw [hpc, pointers_diff]
    exact .effect (.take (mem_pointers.mpr hq))
  | @free p _ hset =>
    obtain ⟨q, hq, rfl⟩ := hI.free hpc
    obtain ⟨m', hset', h'⟩ := hI.shown.free hs hlen hq
    rw [hset] at hset'
    cases hset'
    have hgrow := Set.subset_insert q F
    refine ⟨insert q F, hI.does h' ?_ hI.proper (Or.inl hgrow) (by simp [Pc.phase]) (by simp) (by simp), Or.inl hgrow⟩
    rw [hpc, pointers_insert]
    exact .effect .put

/-- What one step of a run does to the free blocks: only the owner's mark takes one away. -/
theorem Inv.step (hI : Inv slab len owner s h F) (hs : IsPage slab) (hlen : IsSizeClass len)
    (hok : Permitted owner (s, h) a) (hm : Moves slab s a s' es) :
    ∃ F', Inv slab len owner s' (h ++ es) F' ∧ (F ⊆ F' ∨ ∃ u p, a = .run u ∧ s.pc u = .mark p) := by
  cases hm with
  | @call u op hpc =>
    cases op with
    | take =>
      obtain rfl : u = owner := hok
      exact ⟨F, hI.call_take hpc, Or.inl subset_rfl⟩
    | put p => exact ⟨F, hI.call_put hpc hok, Or.inl subset_rfl⟩
  | @next u _ _ hn =>
    obtain ⟨F', hI', hgrow⟩ := hI.next hs hlen hn
    rw [List.append_nil]
    refine ⟨F', hI', hgrow.imp_right ?_⟩
    rintro ⟨p, hp⟩
    exact ⟨u, p, rfl, hp⟩
  | ret hpc => exact ⟨F, hI.ret hpc, Or.inl subset_rfl⟩

theorem reachable_inv (hs : IsPage slab) (hlen : IsSizeClass len)
    (hr : Reachable (cpus slab len) (Permitted owner) x) : ∃ F, Inv slab len owner x.1 x.2 F := by
  apply hr.invariant (P := fun x => ∃ F, Inv slab len owner x.1 x.2 F)
  · rintro ⟨s, h⟩ ⟨hstart, rfl⟩
    exact ⟨_, hstart.inv hlen⟩
  · rintro ⟨s, h⟩ a ⟨s', h'⟩ ⟨F, hI⟩ hok ⟨es, hrun, rfl⟩
    obtain ⟨F', hI', -⟩ := hI.step hs hlen hok (exec_moves hs hrun)
    exact ⟨F', hI'⟩

end GenericOs.Slab.Concurrent
