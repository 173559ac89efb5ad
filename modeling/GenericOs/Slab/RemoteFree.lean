import Mathlib.Data.List.Count
import GenericOs.Slab.Concurrent

/-!
# Remote frees

The CPUs at work on one slab look like an atomic pool of its blocks. None of them waits for
another, and the owner gets a low block.
-/

namespace GenericOs.Slab.Concurrent

open Linearizable (IsLinearizable)
open Pool (Op Step History Held)
open Transition (Reachable Steps guarded)

variable {Cpu : Type} [DecidableEq Cpu] {slab len q : ℕ} {m m' : Memory} {pc pc' : Pc} {F : Set ℕ}
  {s s' : State Cpu} {a : Act Cpu} {es h : History Cpu Nat} {owner u : Cpu} {x x' : State Cpu × History Cpu Nat}

/-! ## A run -/

/-- Two CPUs and a new slab of 64-byte blocks; `true` is the owner. -/
def newSlab : State Bool × History Bool Nat := (⟨freshSlab, fun _ => .idle⟩, [])

theorem newSlab_init : (cpus 4096 64).init newSlab := ⟨⟨freshSlab_fresh, fun _ => rfl⟩, rfl⟩

/-- The owner has taken a block. `false` is about to put it back, and the owner to take one more. -/
def bothCalled : List (Act Bool) :=
  [.call true .take, .run true, .run true, .run true, .call false (.put 4160), .call true .take]

/-- The owner scans, the block comes back, and the owner marks what it has found. -/
def freedLate : List (Act Bool) := [.run true, .run false, .run true, .run false]

/-- The block comes back before the owner scans. -/
def freedEarly : List (Act Bool) := [.run false, .run true, .run false, .run true]

def takenAgain : List (Act Bool) := [.run true, .call true .take, .run true, .run true, .run true]

def allSeen : History Bool Nat :=
  [.call true .take, .ret true .take (some 4160), .call false (.put 4160), .call true .take,
    .ret false (.put 4160) none, .ret true .take (some 4224), .call true .take, .ret true .take (some 4160)]

theorem allSeen_reachable : ∃ x, Reachable (cpus 4096 64) (Permitted true) x ∧ x.2 = allSeen := by
  have hrun : ((bothCalled ++ freedLate ++ takenAgain).foldlM (guarded (Permitted true) (execSeen 4096)) newSlab).map
      Prod.snd = some allSeen := by decide +kernel
  obtain ⟨x, h, hseen⟩ := Option.map_eq_some_iff.mp hrun
  exact ⟨x, .of_guarded (.init newSlab_init) (fun _ _ _ => execSeen_step) h, hseen⟩

/-- From where both have called, these steps lead here. -/
structure Later (acts : List (Act Bool)) (es : History Bool Nat) (pc : Pc) (x x' : State Bool × History Bool Nat) :
    Prop where
  reachable : Reachable (cpus 4096 64) (Permitted true) x
  called : x.1.pc true = .scan 0
  free : ∀ i < slotCount, 8 ≤ i → bit x.1.mem 4096 i = true
  steps : Steps (cpus 4096 64) (Permitted true) x acts x'
  seen : x'.2 = x.2 ++ es
  pc : x'.1.pc true = pc

theorem later {acts : List (Act Bool)} {es : History Bool Nat} {pc : Pc}
    (h : ((bothCalled.foldlM (guarded (Permitted true) (execSeen 4096)) newSlab).bind fun x =>
      (acts.foldlM (guarded (Permitted true) (execSeen 4096)) x).map fun x' =>
        (x.1.pc true, decide (∀ i < slotCount, 8 ≤ i → bit x.1.mem 4096 i = true), x'.1.pc true,
          decide (x'.2 = x.2 ++ es))) = some (.scan 0, true, pc, true)) :
    ∃ x x', Later acts es pc x x' := by
  obtain ⟨x, hx, h⟩ := Option.bind_eq_some_iff.mp h
  obtain ⟨x', hx', h⟩ := Option.map_eq_some_iff.mp h
  simp only [Prod.mk.injEq, decide_eq_true_eq] at h
  exact ⟨x, x', .of_guarded (.init newSlab_init) (fun _ _ _ => execSeen_step) hx, h.1, h.2.1,
    .of_guarded (fun _ _ _ => execSeen_step) hx', h.2.2.2, h.2.2.1⟩

/-! ## The atomic pool -/

/-- Every run of the CPUs looks like a run of the atomic pool. -/
theorem linearizable (hs : IsPage slab) (hlen : IsSizeClass len)
    (hr : Reachable (cpus slab len) (Permitted owner) x) :
    IsLinearizable Step (pointers slab (alignedBlocks len)) x.2 := by
  obtain ⟨F, hI⟩ := reachable_inv hs hlen hr
  exact ⟨_, _, hI.atomic⟩

theorem linearizable_allSeen : ∃ x, Reachable (cpus 4096 64) (Permitted true) x ∧ x.2 = allSeen ∧
    IsLinearizable Step (pointers 4096 (alignedBlocks 64)) x.2 := by
  obtain ⟨x, hr, hseen⟩ := allSeen_reachable
  exact ⟨x, hr, hseen, linearizable isPage_4096 ⟨2, by decide, by decide⟩ hr⟩

/-- A block that somebody has is marked in the bitmap, and it is not handed out again before it is put back. -/
theorem held_marked (hs : IsPage slab) (hlen : IsSizeClass len)
    (hr : Reachable (cpus slab len) (Permitted owner) x) :
    (∀ p, Held x.2 p → ∃ q ∈ alignedBlocks len, p = slab + q ∧ ∀ i ∈ coverAt len q, bit x.1.mem slab i = false) ∧
      ∀ p u v before between after,
        x.2 = before ++ .ret u .take (some p) :: (between ++ .ret v .take (some p) :: after) →
        ∃ w, .call w (.put p) ∈ between := by
  obtain ⟨F, hI⟩ := reachable_inv hs hlen hr
  constructor
  · intro p hp
    obtain ⟨⟨q, hq, rfl⟩, hout⟩ := Pool.held_mem hI.atomic hI.proper hp
    refine ⟨q, hq, rfl, fun i hi => ?_⟩
    rw [← Bool.not_eq_true, hI.shown.bit_iff (coverAt_lt hlen hq hi)]
    rintro ⟨q', hq', hi'⟩
    by_cases hqq : q' = q
    · subst hqq
      exact hout (mem_pointers.mpr hq')
    · exact coverAt_apart hlen hq (hI.shown.sub hq') hqq i hi' hi
  · intro p u v before between after he
    have hlin := linearizable hs hlen hr
    have hproper := hI.proper
    rw [he] at hlin hproper
    exact Pool.put_between hlin hproper

/-- The owner has the block at 128 all along, and the one at 64 again. -/
theorem held_marked_allSeen : ∃ x, Reachable (cpus 4096 64) (Permitted true) x ∧ x.2 = allSeen ∧ Held x.2 4224 ∧
    (∃ q ∈ alignedBlocks 64, 4224 = 4096 + q ∧ ∀ i ∈ coverAt 64 q, bit x.1.mem 4096 i = false) ∧
    ∃ w, .call w (.put 4160) ∈ (allSeen.drop 2).take 5 := by
  obtain ⟨x, hr, hseen⟩ := allSeen_reachable
  have hheld : Held x.2 4224 := by
    rw [hseen]
    decide
  obtain ⟨hmarked, hput⟩ := held_marked isPage_4096 ⟨2, by decide, by decide⟩ hr
  exact ⟨x, hr, hseen, hheld, hmarked 4224 hheld, hput 4160 true true [.call true .take] _ [] hseen⟩

/-! ## Nobody waits -/

/-- More than the steps a CPU still has to make. -/
def Pc.rank : Pc → Nat
  | .idle => 0
  | .scan base => 3 + (slabsBitmapCount - 1 - base)
  | .mark _ => 2
  | .free _ => 2
  | .done .. => 1

theorem Next.rank (hn : Next slab m pc m' pc') : pc'.rank < pc.rank ∧ pc' ≠ .idle := by
  cases hn with
  | found => exact ⟨by simp only [Pc.rank]; omega, by simp⟩
  | later hw hbase => exact ⟨by simp only [Pc.rank]; omega, by simp⟩
  | none => exact ⟨by simp only [Pc.rank]; omega, by simp⟩
  | mark => exact ⟨by simp [Pc.rank], by simp⟩
  | free => exact ⟨by simp [Pc.rank], by simp⟩

theorem Moves.rank (hm : Moves slab s a s' es) (hpc : s.pc u ≠ .idle) :
    (∃ op res, es = [.ret u op res]) ∨
      (s'.pc u ≠ .idle ∧ (if a = .run u then 1 else 0) + (s'.pc u).rank ≤ (s.pc u).rank) := by
  cases hm with
  | @call v op hidle =>
    have hvu : u ≠ v := by rintro rfl; exact hpc hidle
    right
    simp [Function.update_of_ne hvu, hpc]
  | @next v m pc hn =>
    right
    by_cases hvu : u = v
    · subst hvu
      obtain ⟨hlt, hne⟩ := hn.rank
      simp only [Function.update_self, if_pos]
      exact ⟨hne, by omega⟩
    · simp [Function.update_of_ne hvu, hpc, Ne.symm hvu]
  | @ret v op res hdone =>
    by_cases hvu : u = v
    · subst hvu
      exact Or.inl ⟨op, res, rfl⟩
    · right
      simp [Function.update_of_ne hvu, hpc, Ne.symm hvu]

theorem Inv.goes_on (hI : Inv slab len owner s h F) (hs : IsPage slab) (hlen : IsSizeClass len)
    (hpc : s.pc u ≠ .idle) : ∃ s' es, exec slab s (.run u) = some (s', es) := by
  unfold exec
  cases h' : s.pc u with
  | idle => exact absurd h' hpc
  | done op res =>
    simp only [h']
    exact ⟨_, _, rfl⟩
  | scan base =>
    simp only [h', Concurrent.next, word_load hs, Option.bind_eq_bind, Option.bind_some]
    split_ifs
    · exact ⟨_, _, rfl⟩
    · exact ⟨_, _, rfl⟩
    · exact ⟨_, _, rfl⟩
  | mark p =>
    obtain ⟨q, hq, rfl⟩ := hI.mark u p h'
    obtain ⟨m', hset, -⟩ := hI.shown.take hs hlen hq
    simp only [h', Concurrent.next, hset]
    exact ⟨_, _, rfl⟩
  | free p =>
    obtain ⟨q, hq, rfl⟩ := hI.free h'
    obtain ⟨m', hset, -⟩ := hI.shown.free hs hlen hq
    simp only [h', Concurrent.next, hset]
    exact ⟨_, _, rfl⟩

theorem history_grows {acts : List (Act Cpu)} (hsteps : Steps (cpus slab len) (Permitted owner) x acts x') :
    ∃ es, x'.2 = x.2 ++ es := by
  induction hsteps with
  | nil => exact ⟨[], by simp⟩
  | cons _ hstep _ ih =>
    obtain ⟨es, -, hhist⟩ := hstep
    obtain ⟨es', ih⟩ := ih
    exact ⟨es ++ es', by rw [ih, hhist, List.append_assoc]⟩

/-- Whatever the other CPUs do, a CPU returns within six steps of its own, and none of them waits or fails. -/
theorem wait_free {acts : List (Act Cpu)} (hs : IsPage slab) (hlen : IsSizeClass len)
    (hr : Reachable (cpus slab len) (Permitted owner) x) (hpc : x.1.pc u ≠ .idle)
    (hsteps : Steps (cpus slab len) (Permitted owner) x acts x') :
    (∃ es op res, x'.2 = x.2 ++ es ∧ .ret u op res ∈ es) ∨
      (acts.count (.run u) < 6 ∧ ∃ s es, exec slab x'.1 (.run u) = some (s, es)) := by
  have hrank : ∀ pc : Pc, pc ≠ .idle → 0 < pc.rank ∧ pc.rank ≤ 6 := by
    rintro (_ | _ | _ | _ | _) hne
    · exact absurd rfl hne
    · simp only [Pc.rank, slabsBitmapCount_val]; omega
    · simp [Pc.rank]
    · simp [Pc.rank]
    · simp [Pc.rank]
  suffices hall : (∃ es op res, x'.2 = x.2 ++ es ∧ .ret u op res ∈ es) ∨
      (x'.1.pc u ≠ .idle ∧ acts.count (.run u) + (x'.1.pc u).rank ≤ (x.1.pc u).rank) by
    refine hall.imp_right ?_
    rintro ⟨hpc', hle⟩
    obtain ⟨F, hI⟩ := reachable_inv hs hlen (hr.steps hsteps)
    exact ⟨by have := hrank _ hpc; have := hrank _ hpc'; omega, hI.goes_on hs hlen hpc'⟩
  induction hsteps with
  | nil => exact Or.inr ⟨hpc, by simp⟩
  | @cons x x₁ x₂ a acts hok hstep hrest ih =>
    obtain ⟨es, hrun, hhist⟩ := hstep
    rcases (exec_moves hs hrun).rank hpc with ⟨op, res, rfl⟩ | ⟨hpc₁, hle⟩
    · left
      obtain ⟨more, hmore⟩ := history_grows hrest
      exact ⟨.ret u op res :: more, op, res, by rw [hmore, hhist]; simp, by simp⟩
    · rcases ih (.step hr hok ⟨es, hrun, hhist⟩) hpc₁ with ⟨es', op, res, he, hmem⟩ | ⟨hpc₂, hle₂⟩
      · exact Or.inl ⟨es ++ es', op, res, by rw [he, hhist]; simp, by simp [hmem]⟩
      · refine Or.inr ⟨hpc₂, ?_⟩
        rw [List.count_cons]
        simp only [beq_iff_eq]
        omega

/-- The owner has not returned after two steps of its own, with the other CPU's steps between them. -/
theorem wait_free_freedLate : ∃ x x', Later freedLate [.ret false (.put 4160) none] (.done .take (some 4224)) x x' ∧
    ∃ s es, exec 4096 x'.1 (.run true) = some (s, es) := by
  obtain ⟨x, x', h⟩ := @later freedLate [.ret false (.put 4160) none] (.done .take (some 4224)) (by decide +kernel)
  have hcalled : x.1.pc true ≠ .idle := by
    rw [h.called]
    nofun
  rcases wait_free isPage_4096 ⟨2, by decide, by decide⟩ h.reachable hcalled h.steps with
    ⟨es, op, res, he, hmem⟩ | ⟨-, hstep⟩
  · rw [h.seen, List.append_cancel_left_eq] at he
    subst he
    simp at hmem
  · exact ⟨x, x', h, hstep⟩

/-! ## How low the returned block is -/

/-- With the offsets `F₀` free at the call, how far the scan of the owner can be. -/
def Below (slab : Nat) (F₀ F : Set ℕ) : Pc → Prop
  | .scan base => F₀ ⊆ F ∧ ∀ q ∈ F₀, 1024 * base ≤ q
  | .mark p => ∀ q ∈ F₀, p ≤ slab + q
  | .done _ res => ∀ q ∈ F₀, ∃ p, res = some p ∧ p ≤ slab + q
  | _ => False

theorem Inv.below {F₀ : Set ℕ} (hI : Inv slab len owner s h F) (hs : IsPage slab) (hlen : IsSizeClass len)
    (hb : Below slab F₀ F (s.pc owner)) (hok : Permitted owner (s, h) a) (hm : Moves slab s a s' es) :
    (∃ op res, es = [.ret owner op res]) ∨
      ∃ F', Inv slab len owner s' (h ++ es) F' ∧ Below slab F₀ F' (s'.pc owner) := by
  obtain ⟨F', hI', hgrow⟩ := hI.step hs hlen hok hm
  have hother : s'.pc owner = s.pc owner → (∀ p, a = .run owner → s.pc owner ≠ .mark p) →
      Below slab F₀ F' (s'.pc owner) := by
    intro hpc hno
    rw [hpc]
    generalize hp : s.pc owner = pc at hb hno
    cases pc with
    | scan base =>
      refine ⟨hb.1.trans (hgrow.resolve_right ?_), hb.2⟩
      rintro ⟨v, p, rfl, hv⟩
      have hvo := hI.owner v (by rw [phases, hv]; rfl)
      rw [hvo, hp] at hv
      cases hv
    | _ => exact hb
  cases hm with
  | @call v op hidle =>
    have hne : owner ≠ v := by
      rintro rfl
      rw [hidle] at hb
      exact hb
    exact Or.inr ⟨F', hI', hother (Function.update_of_ne hne ..) (by simp)⟩
  | @ret v op res hdone =>
    by_cases hne : owner = v
    · subst hne
      exact Or.inl ⟨op, res, rfl⟩
    · exact Or.inr ⟨F', hI', hother (Function.update_of_ne hne ..) (by rintro p ⟨⟩; exact absurd rfl hne)⟩
  | @next v m pc hn =>
    right
    by_cases hne : owner = v
    · subst hne
      refine ⟨F', hI', ?_⟩
      have hsame : Below slab F₀ F pc → (∀ p, s.pc owner ≠ .mark p) → Below slab F₀ F' pc := by
        intro hpc hno
        have hsub := hgrow.resolve_right (by rintro ⟨v, p, ⟨⟩, hv⟩; exact hno p hv)
        cases pc with
        | scan base => exact ⟨hpc.1.trans hsub, hpc.2⟩
        | _ => exact hpc
      simp only [Function.update_self]
      generalize hp : s.pc owner = pc₀ at hn hb hsame
      cases hn with
      | @found base slot hw hslot =>
        refine hsame ?_ (by simp)
        obtain ⟨q, -, hslotq, hlow⟩ := word_found hI.shown hlen (hI.scan owner base hp).1 hw hslot
        intro q' hq'
        rw [hslotq]
        exact Nat.add_le_add_left (hlow q' (hb.1 hq') (hb.2 q' hq')) slab
      | @later base hw hnext =>
        refine hsame ⟨hb.1, fun q hq => ?_⟩ (by simp)
        have := word_none hI.shown hlen hw (hb.1 hq)
        have := hb.2 q hq
        omega
      | @none base hw hlast =>
        refine hsame (fun q hq => ?_) (by simp)
        have := word_none hI.shown hlen hw (hb.1 hq)
        have := hb.2 q hq
        have := (word_of_mem hI.shown hlen (hb.1 hq)).1
        have := (hI.scan owner base hp).1
        omega
      | @mark p _ hset => exact fun q hq => ⟨p, rfl, hb q hq⟩
      | free hset => exact absurd hb id
    · exact ⟨F', hI', hother (Function.update_of_ne hne ..) (by rintro p ⟨⟩; exact absurd rfl hne)⟩

/-- The owner's answer is no higher than any block that was free when it called, and null only if none was. -/
theorem lowest {acts : List (Act Cpu)} {op : Op ℕ} {res : Option ℕ} (hs : IsPage slab) (hlen : IsSizeClass len)
    (hr : Reachable (cpus slab len) (Permitted owner) x) (hcall : x.1.pc owner = .scan 0)
    (hsteps : Steps (cpus slab len) (Permitted owner) x acts x') (hdone : x'.1.pc owner = .done op res)
    (honce : ∀ es op res, x'.2 = x.2 ++ es → .ret owner op res ∉ es) :
    ∀ q ∈ alignedBlocks len, (∀ i ∈ coverAt len q, bit x.1.mem slab i = true) → ∃ p, res = some p ∧ p ≤ slab + q := by
  obtain ⟨F₀, hI⟩ := reachable_inv hs hlen hr
  have hstart : Below slab F₀ F₀ (x.1.pc owner) := by
    rw [hcall]
    exact ⟨subset_rfl, fun q _ => by omega⟩
  have hrun : ∀ F, Inv slab len owner x.1 x.2 F → Below slab F₀ F (x.1.pc owner) →
      ∃ F, Below slab F₀ F (x'.1.pc owner) := by
    clear hI hstart hcall hr
    induction hsteps with
    | nil => exact fun F _ hb => ⟨F, hb⟩
    | @cons x x₁ x₂ a acts hok hstep hrest ih =>
      intro F hI hb
      obtain ⟨es, hexec, hhist⟩ := hstep
      obtain ⟨more, hmore⟩ := history_grows hrest
      rcases hI.below hs hlen hb hok (exec_moves hs hexec) with ⟨op, res, rfl⟩ | ⟨F', hI', hb'⟩
      · exact absurd (by simp) (honce (.ret owner op res :: more) op res (by rw [hmore, hhist]; simp))
      · rw [← hhist] at hI'
        refine ih hdone (fun es' op res he hmem => ?_) F' hI' hb'
        exact honce (es ++ es') op res (by rw [he, hhist]; simp) (by simp [hmem])
  obtain ⟨F, hb⟩ := hrun F₀ hI hstart
  rw [hdone] at hb
  intro q hq hbits
  apply hb q
  -- The block is free: its first slot belongs to no other block.
  have hA := aligned hlen hq
  have hslots := hA.slots
  have hi : q / 16 ∈ coverAt len q := by
    simp only [coverAt, Set.mem_ofPred_eq, slabsMinAlloc_val]
    omega
  obtain ⟨q', hq', hi'⟩ := (hI.shown.bit_iff (coverAt_lt hlen hq hi)).mp (hbits _ hi)
  by_contra hno
  exact coverAt_apart hlen hq (hI.shown.sub hq') (by rintro rfl; exact hno hq') _ hi' hi

/-- The block at 128 was free at the call, and the one that came back during it is lower. -/
theorem lowest_freedEarly : ∃ x x', Later freedEarly [.ret false (.put 4160) none] (.done .take (some 4160)) x x' ∧
    ∃ p, some 4160 = some p ∧ p ≤ 4096 + 128 := by
  have hlen : IsSizeClass 64 := ⟨2, by decide, by decide⟩
  have hq : 128 ∈ alignedBlocks 64 := (mem_alignedBlocks hlen).mpr (by omega)
  obtain ⟨x, x', h⟩ := @later freedEarly [.ret false (.put 4160) none] (.done .take (some 4160)) (by decide +kernel)
  refine ⟨x, x', h, lowest isPage_4096 hlen h.reachable h.called h.steps h.pc ?_ 128 hq fun i hi => ?_⟩
  · intro es op res he hmem
    rw [h.seen, List.append_cancel_left_eq] at he
    subst he
    simp at hmem
  · refine h.free i (coverAt_lt hlen hq hi) ?_
    simp only [coverAt, Set.mem_ofPred_eq, slabsMinAlloc_val] at hi
    omega

end GenericOs.Slab.Concurrent
