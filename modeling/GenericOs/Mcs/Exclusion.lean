import Mathlib.Data.Fintype.Option
import Mathlib.Data.List.Nodup
import GenericOs.Mcs.Code

/-!
# Mutual exclusion

The threads in `MCSLock` and those that hold the lock form a queue, in the order of
their exchanges. Only the first of them can get in, as long as nobody reads an old
`Finished` flag of a ticket whose new fields are not written yet.
-/

namespace GenericOs.Mcs

open Transition (Reachable guarded foldlM_of_guarded)

variable {Thread Ticket : Type} {owner : Ticket → Thread} {s s' : State Thread Ticket} {e : Event Thread Ticket}
  {u v : Thread} {t p : Ticket} {q q' : List (Thread × Ticket)} {first : Bool} {before : Option Ticket}

/-! ## The queue -/

/-- `u` is in the queue with the ticket `t`, behind the ticket `before`. -/
inductive Waits (s : State Thread Ticket) (first : Bool) (before : Option Ticket) (u : Thread) (t : Ticket) : Prop
  | write (hpc : s.pc u = .write t before)
  | testPrev (hpc : s.pc u = .testPrev t) (hprev : s.prev t = before) (hfin : s.finished t = false)
  | testFinished (hpc : s.pc u = .testFinished t) (hprev : s.prev t = before) (hfin : s.finished t = false)
  | critical (hpc : s.pc u = .critical t) (hfirst : first = true) (hfin : s.finished t = false)

/-- The rest of the queue, behind the ticket `before`. `first` says whether it is all of it. -/
def Queued (s : State Thread Ticket) : Bool → Option Ticket → List (Thread × Ticket) → Prop
  | _, before, [] => s.top = before
  | first, before, (u, t) :: q => Waits s first before u t ∧ Queued s false (some t) q

structure Queue (s : State Thread Ticket) (before : Option Ticket) (q : List (Thread × Ticket)) : Prop where
  queued : Queued s true before q
  nodup : (q.map Prod.fst).Nodup
  outside : ∀ u, u ∉ q.map Prod.fst → s.pc u = .idle ∨ ∃ t, s.pc u = .clear t

theorem Waits.ticket (h : Waits s first before u t) : (s.pc u).ticket = some t := by
  cases h with
  | write hpc | testPrev hpc | testFinished hpc | critical hpc => rw [hpc]; rfl

theorem Waits.of_write {t' : Ticket} {prevTop : Option Ticket} (h : Waits s first before u t)
    (hpc : s.pc u = .write t' prevTop) : t' = t ∧ prevTop = before := by
  cases h with
  | write h =>
    rw [hpc] at h
    cases h
    exact ⟨rfl, rfl⟩
  | testPrev h | testFinished h | critical h =>
    rw [hpc] at h
    cases h

theorem Waits.of_test {t' : Ticket} (h : Waits s first before u t)
    (hpc : s.pc u = .testPrev t' ∨ s.pc u = .testFinished t') :
    t' = t ∧ s.prev t = before ∧ s.finished t = false := by
  cases h with
  | testPrev h h1 h2 | testFinished h h1 h2 =>
    rw [h] at hpc
    rcases hpc with ⟨⟨⟩⟩ | ⟨⟨⟩⟩
    exact ⟨rfl, h1, h2⟩
  | write h | critical h =>
    rw [h] at hpc
    rcases hpc with ⟨⟨⟩⟩ | ⟨⟨⟩⟩

theorem Waits.toFirst (h : Waits s first before u t) : Waits s true before u t := by
  cases h with
  | write hpc => exact .write hpc
  | testPrev hpc hprev hfin => exact .testPrev hpc hprev hfin
  | testFinished hpc hprev hfin => exact .testFinished hpc hprev hfin
  | critical hpc _ hfin => exact .critical hpc rfl hfin

theorem Queued.toFirst (h : Queued s first before q) : Queued s true before q := by
  cases q with
  | nil => exact h
  | cons x q => exact ⟨h.1.toFirst, h.2⟩

theorem Queued.waits (h : Queued s first before q) (hm : (u, t) ∈ q) : ∃ f b, Waits s f b u t := by
  induction q generalizing first before with
  | nil => cases hm
  | cons x q ih =>
    rcases List.mem_cons.mp hm with rfl | hm
    · exact ⟨first, before, h.1⟩
    · exact ih h.2 hm

/-- What a ticket in the queue stands behind: all but the first behind another ticket of the queue. -/
def Behind (q : List (Thread × Ticket)) (first : Bool) (before : Option Ticket) : Prop :=
  first = true ∨ ∃ w p, before = some p ∧ (w, p) ∈ q

theorem Queued.step (h : Queued s first before q) (hsub : q ⊆ q') (hb : Behind q' first before)
    (htop : s'.top = s.top)
    (hstep : ∀ v t f b, (v, t) ∈ q → Behind q' f b → Waits s f b v t → Waits s' f b v t) :
    Queued s' first before q := by
  induction q generalizing first before with
  | nil => exact htop.trans h
  | cons x q ih =>
    obtain ⟨v, t⟩ := x
    refine ⟨hstep v t first before (by simp) hb h.1, ?_⟩
    refine ih h.2 (fun y hy => hsub (List.mem_cons_of_mem _ hy)) ?_ ?_
    · exact Or.inr ⟨v, t, rfl, hsub (by simp)⟩
    · exact fun v t f b hm => hstep v t f b (List.mem_cons_of_mem _ hm)

/-- An exchange puts a ticket behind the last one. -/
theorem Queued.append (h : Queued s first before q) (htop : s'.top = some t)
    (hnew : ∀ f, Waits s' f s.top u t)
    (hold : ∀ v t f b, (v, t) ∈ q → Waits s f b v t → Waits s' f b v t) :
    Queued s' first before (q ++ [(u, t)]) := by
  induction q generalizing first before with
  | nil =>
    have hbefore : s.top = before := h
    rw [← hbefore]
    exact ⟨hnew first, htop⟩
  | cons x q ih =>
    obtain ⟨v, t'⟩ := x
    exact ⟨hold v t' first before (by simp) h.1,
      ih h.2 fun v t f b hm => hold v t f b (List.mem_cons_of_mem _ hm)⟩

theorem Queued.critical (h : Queued s first before q) (hm : (u, t) ∈ q) (hpc : s.pc u = .critical t) :
    first = true ∧ ∃ q', q = (u, t) :: q' := by
  induction q generalizing first before with
  | nil => cases hm
  | cons x q ih =>
    rcases List.mem_cons.mp hm with rfl | hm
    · refine ⟨?_, q, rfl⟩
      cases h.1 with
      | critical _ hfirst => exact hfirst
      | write h | testPrev h | testFinished h =>
        rw [hpc] at h
        cases h
    · exact absurd (ih h.2 hm).1 (by simp)

theorem Queue.mem (hQ : Queue s before q) (ht : (s.pc u).ticket = some t) (hc : s.pc u ≠ .clear t) :
    (u, t) ∈ q := by
  by_cases hm : u ∈ q.map Prod.fst
  · obtain ⟨⟨u', t'⟩, hm', rfl⟩ := List.mem_map.mp hm
    obtain ⟨f, b, hw⟩ := hQ.queued.waits hm'
    obtain rfl : t' = t := Option.some.inj (hw.ticket.symm.trans ht)
    exact hm'
  · rcases hQ.outside u hm with hpc | ⟨t', hpc⟩
    · rw [hpc] at ht
      cases ht
    · rw [hpc] at ht hc
      cases ht
      exact absurd rfl hc

theorem Start.queue (h : Start s) : Queue s none [] :=
  ⟨h.top, List.nodup_nil, fun u _ => Or.inl (h.idle u)⟩

/-! ## One step -/

theorem Waits.frame (h : Waits s first before v t) (hpc : s'.pc v = s.pc v) (hprev : s'.prev t = s.prev t)
    (hfin : s'.finished t = s.finished t) : Waits s' first before v t := by
  cases h with
  | write h => exact .write (hpc.trans h)
  | testPrev h h1 h2 => exact .testPrev (hpc.trans h) (hprev.trans h1) (hfin.trans h2)
  | testFinished h h1 h2 => exact .testFinished (hpc.trans h) (hprev.trans h1) (hfin.trans h2)
  | critical h h1 h2 => exact .critical (hpc.trans h) h1 (hfin.trans h2)

/-- The thread `u` takes a step: all else stays as it is. -/
structure Local (owner : Ticket → Thread) (u : Thread) (s s' : State Thread Ticket) : Prop where
  pc : ∀ v, v ≠ u → s'.pc v = s.pc v
  prev : ∀ t, owner t ≠ u → s'.prev t = s.prev t
  finished : ∀ t, owner t ≠ u → s'.finished t = s.finished t

theorem Local.waits (hl : Local owner u s s') (ho : Owned owner s) (hv : v ≠ u)
    (h : Waits s first before v t) : Waits s' first before v t := by
  have ht : owner t ≠ u := by
    rw [ho v t h.ticket]
    exact hv
  exact h.frame (hl.pc v hv) (hl.prev t ht) (hl.finished t ht)

/-- A thread in the queue goes on and stays where it is. -/
theorem Queue.move (hQ : Queue s before q) (ho : Owned owner s) (hl : Local owner u s s')
    (hu : u ∈ q.map Prod.fst) (htop : s'.top = s.top)
    (hself : ∀ t f b, Behind q f b → Waits s f b u t → Waits s' f b u t) : Queue s' before q where
  queued := by
    refine hQ.queued.step (List.Subset.refl q) (Or.inl rfl) htop fun v t f b _ hb hw => ?_
    by_cases hv : v = u
    · subst hv
      exact hself t f b hb hw
    · exact hl.waits ho hv hw
  nodup := hQ.nodup
  outside v hv := by
    rw [hl.pc v (by rintro rfl; exact hv hu)]
    exact hQ.outside v hv

theorem Queue.lock (hQ : Queue s before q) (ho : Owned owner s) (hpc : s.pc u = .idle)
    (hl : Local owner u s s') (htop : s'.top = some t) (hself : s'.pc u = .write t s.top) :
    Queue s' before (q ++ [(u, t)]) := by
  have hout : u ∉ q.map Prod.fst := by
    intro hm
    obtain ⟨⟨u', t'⟩, hm', rfl⟩ := List.mem_map.mp hm
    obtain ⟨f, b, hw⟩ := hQ.queued.waits hm'
    have ht := hw.ticket
    rw [hpc] at ht
    cases ht
  refine ⟨hQ.queued.append htop (fun _ => .write hself) ?_, ?_, ?_⟩
  · intro v t' f b hm hw
    refine hl.waits ho ?_ hw
    rintro rfl
    exact hout (List.mem_map_of_mem hm)
  · rw [List.map_append, List.nodup_append_comm]
    exact List.nodup_cons.mpr ⟨hout, hQ.nodup⟩
  · intro v hv
    rw [List.map_append, List.mem_append, not_or] at hv
    rw [hl.pc v (by rintro rfl; exact hv.2 (by simp))]
    exact hQ.outside v hv.1

theorem Queue.finish (hQ : Queue s before q) (ho : Owned owner s) (hpc : s.pc u = .critical t)
    (hl : Local owner u s s') (htop : s'.top = s.top) (hself : s'.pc u = .clear t) :
    ∃ q', q = (u, t) :: q' ∧ Queue s' (some t) q' := by
  have hm : (u, t) ∈ q := hQ.mem (by rw [hpc]; rfl) (by rw [hpc]; simp)
  obtain ⟨-, q', rfl⟩ := hQ.queued.critical hm hpc
  obtain ⟨hout, hnodup⟩ := List.nodup_cons.mp hQ.nodup
  have hrest : Queued s' false (some t) q' := by
    refine hQ.queued.2.step (List.subset_cons_self (u, t) q') ?_ htop ?_
    · exact Or.inr ⟨u, t, rfl, by simp⟩
    · intro v t' f b hm' _ hw
      refine hl.waits ho ?_ hw
      rintro rfl
      exact hout (List.mem_map.mpr ⟨(v, t'), hm', rfl⟩)
  refine ⟨q', rfl, hrest.toFirst, hnodup, fun v hv => ?_⟩
  by_cases hvu : v = u
  · subst hvu
    exact Or.inr ⟨t, hself⟩
  · rw [hl.pc v hvu]
    refine hQ.outside v ?_
    rw [List.map_cons, List.mem_cons, not_or]
    exact ⟨hvu, hv⟩

/-- A thread that is done with `MCSUnlock` is not in the queue any more. -/
theorem Queue.clear (hQ : Queue s before q) (ho : Owned owner s) (hpc : s.pc u = .clear t)
    (hl : Local owner u s s') (htop : s'.top = s.top) (hself : s'.pc u = .idle) : Queue s' before q := by
  have hout : ∀ v t', (v, t') ∈ q → v ≠ u := by
    rintro v t' hm rfl
    obtain ⟨f, b, hw⟩ := hQ.queued.waits hm
    cases hw with
    | write h | testPrev h | testFinished h | critical h =>
      rw [hpc] at h
      cases h
  refine ⟨?_, hQ.nodup, fun v hv => ?_⟩
  · exact hQ.queued.step (List.Subset.refl q) (Or.inl rfl) htop fun v t' f b hm _ hw =>
      hl.waits ho (hout v t' hm) hw
  · by_cases hvu : v = u
    · subst hvu
      exact Or.inl hself
    · rw [hl.pc v hvu]
      exact hQ.outside v hv

variable [DecidableEq Thread] [DecidableEq Ticket]

/-- The test of `Prev->Finished` does not read an old flag: the ticket's fields have been written. -/
def FreshRead (s : State Thread Ticket) (e : Event Thread Ticket) : Prop :=
  ∀ u t p, e = .run u → s.pc u = .testFinished t → s.prev t = some p → s.finished p = true →
    ∀ v prevTop, s.pc v ≠ .write p prevTop

instance [Fintype Thread] [Fintype Ticket] (s : State Thread Ticket) (e : Event Thread Ticket) :
    Decidable (FreshRead s e) :=
  inferInstanceAs (Decidable (∀ u t p, e = .run u → s.pc u = .testFinished t → s.prev t = some p →
    s.finished p = true → ∀ v prevTop, s.pc v ≠ .write p prevTop))

theorem Moves.isLocal {u : Thread} (ho : Owned owner s) (hm : Moves owner s (.run u) s') :
    Local owner u s s' := by
  have hpc : ∀ pc v, v ≠ u → Function.update s.pc u pc v = s.pc v := fun _ _ hv =>
    Function.update_of_ne hv ..
  have hticket : ∀ t, (s.pc u).ticket = some t → ∀ t', owner t' ≠ u → t' ≠ t := by
    rintro t ht t' ht' rfl
    exact ht' (ho u t' ht)
  cases hm with
  | write h =>
    have hne := hticket _ (by rw [h]; rfl)
    exact ⟨hpc _, fun t' ht => Function.update_of_ne (hne t' ht) .., fun t' ht =>
      Function.update_of_ne (hne t' ht) ..⟩
  | finish h =>
    have hne := hticket _ (by rw [h]; rfl)
    exact ⟨hpc _, fun _ _ => rfl, fun t' ht => Function.update_of_ne (hne t' ht) ..⟩
  | clear h =>
    have hne := hticket _ (by rw [h]; rfl)
    exact ⟨hpc _, fun t' ht => Function.update_of_ne (hne t' ht) .., fun _ _ => rfl⟩
  | free h | wait h | enter h | again h => exact ⟨hpc _, fun _ _ => rfl, fun _ _ => rfl⟩

theorem Moves.isLocal_lock (hm : Moves owner s (.lock u t) s') : Local owner u s s' := by
  cases hm
  exact ⟨fun v hv => Function.update_of_ne hv .., fun _ _ => rfl, fun _ _ => rfl⟩

/-- What a step does to the queue. -/
inductive Shifts (s : State Thread Ticket) : Event Thread Ticket → Option Ticket → List (Thread × Ticket) →
    Option Ticket → List (Thread × Ticket) → Prop
  | lock {u : Thread} {t : Ticket} {b : Option Ticket} {q : List (Thread × Ticket)} :
    Shifts s (.lock u t) b q b (q ++ [(u, t)])
  | leave {u : Thread} {t : Ticket} {b : Option Ticket} {q : List (Thread × Ticket)} (hpc : s.pc u = .critical t) :
    Shifts s (.run u) b ((u, t) :: q) (some t) q
  | stay {u : Thread} {b : Option Ticket} {q : List (Thread × Ticket)} (hpc : ∀ t, s.pc u ≠ .critical t) :
    Shifts s (.run u) b q b q

theorem Queue.shifts (hQ : Queue s before q) (ho : Owned owner s) (hf : FreshRead s e)
    (hm : Moves owner s e s') : ∃ before' q', Queue s' before' q' ∧ Shifts s e before q before' q' := by
  have hin : ∀ u t, (s.pc u).ticket = some t → s.pc u ≠ .clear t → u ∈ q.map Prod.fst := by
    intro u t ht hc
    exact List.mem_map.mpr ⟨(u, t), hQ.mem ht hc, rfl⟩
  cases e with
  | lock u t =>
    have hl := hm.isLocal_lock
    cases hm with
    | lock hpc how => exact ⟨_, _, hQ.lock ho hpc hl rfl (Function.update_self ..), .lock⟩
  | run u =>
    have hl := hm.isLocal ho
    cases hm with
    | clear hpc => exact ⟨_, _, hQ.clear ho hpc hl rfl (Function.update_self ..), .stay (by simp [hpc])⟩
    | finish hpc =>
      obtain ⟨q', rfl, hQ'⟩ := hQ.finish ho hpc hl rfl (Function.update_self ..)
      exact ⟨_, q', hQ', .leave hpc⟩
    | write hpc =>
      refine ⟨_, _, hQ.move ho hl (hin u _ (by rw [hpc]; rfl) (by rw [hpc]; simp)) rfl ?_, .stay (by simp [hpc])⟩
      intro t f b _ hw
      obtain ⟨rfl, rfl⟩ := hw.of_write hpc
      exact .testPrev (Function.update_self ..) (Function.update_self ..) (Function.update_self ..)
    | free hpc hprev =>
      refine ⟨_, _, hQ.move ho hl (hin u _ (by rw [hpc]; rfl) (by rw [hpc]; simp)) rfl ?_, .stay (by simp [hpc])⟩
      intro t f b hb hw
      obtain ⟨rfl, hbefore, hfin⟩ := hw.of_test (Or.inl hpc)
      refine .critical (Function.update_self ..) ?_ hfin
      rcases hb with hfirst | ⟨w, p, rfl, -⟩
      · exact hfirst
      · rw [hprev] at hbefore
        cases hbefore
    | wait hpc hprev =>
      refine ⟨_, _, hQ.move ho hl (hin u _ (by rw [hpc]; rfl) (by rw [hpc]; simp)) rfl ?_, .stay (by simp [hpc])⟩
      intro t f b _ hw
      obtain ⟨rfl, hbefore, hfin⟩ := hw.of_test (Or.inl hpc)
      exact .testFinished (Function.update_self ..) hbefore hfin
    | enter hpc hprev hread =>
      refine ⟨_, _, hQ.move ho hl (hin u _ (by rw [hpc]; rfl) (by rw [hpc]; simp)) rfl ?_, .stay (by simp [hpc])⟩
      intro t f b hb hw
      obtain ⟨rfl, hbefore, hfin⟩ := hw.of_test (Or.inr hpc)
      refine .critical (Function.update_self ..) ?_ hfin
      rcases hb with hfirst | ⟨w, p, rfl, hm⟩
      · exact hfirst
      · -- The ticket in front is in the queue, so its flag is only set while it is not written.
        obtain rfl := Option.some.inj (hprev.symm.trans hbefore)
        obtain ⟨f', b', hw'⟩ := hQ.queued.waits hm
        cases hw' with
        | write hpc' => exact absurd hpc' (hf u _ _ rfl hpc hprev hread w b')
        | testPrev _ _ h | testFinished _ _ h | critical _ _ h =>
          rw [hread] at h
          cases h
    | again hpc hprev hread =>
      refine ⟨_, _, hQ.move ho hl (hin u _ (by rw [hpc]; rfl) (by rw [hpc]; simp)) rfl ?_, .stay (by simp [hpc])⟩
      intro t f b _ hw
      obtain ⟨rfl, hbefore, hfin⟩ := hw.of_test (Or.inr hpc)
      exact .testPrev (Function.update_self ..) hbefore hfin

theorem Queue.step (hQ : Queue s before q) (ho : Owned owner s) (hf : FreshRead s e)
    (hm : Moves owner s e s') : ∃ before' q', Queue s' before' q' := by
  obtain ⟨before', q', hQ', -⟩ := hQ.shifts ho hf hm
  exact ⟨before', q', hQ'⟩

/-! ## Every run -/

/-- In every run without such reads, at most one thread is between `MCSLock` and `MCSUnlock`. -/
theorem freshRead_exclusive (hr : Reachable (mcs owner) FreshRead s) {u v : Thread} {t t' : Ticket}
    (hu : s.pc u = .critical t) (hv : s.pc v = .critical t') : u = v := by
  have hinv : Owned owner s ∧ ∃ before q, Queue s before q := by
    apply hr.invariant (P := fun s => Owned owner s ∧ ∃ before q, Queue s before q)
    · exact fun s hs => ⟨hs.owned, _, _, hs.queue⟩
    · rintro s e s' ⟨ho, before, q, hQ⟩ hf hstep
      have hm := exec_moves hstep
      exact ⟨ho.step hm, hQ.step ho hf hm⟩
  obtain ⟨-, before, q, hQ⟩ := hinv
  have hmu : (u, t) ∈ q := hQ.mem (by rw [hu]; rfl) (by rw [hu]; simp)
  have hmv : (v, t') ∈ q := hQ.mem (by rw [hv]; rfl) (by rw [hv]; simp)
  obtain ⟨-, q₁, h₁⟩ := hQ.queued.critical hmu hu
  obtain ⟨-, q₂, h₂⟩ := hQ.queued.critical hmv hv
  rw [h₁] at h₂
  exact congrArg Prod.fst (List.cons.inj h₂).1

/-- The first thread is alone in, and then the second one is. -/
theorem freshRead_exclusive_handover :
    ∃ s s', contended.foldlM (exec id) newLock = some s ∧ handover.foldlM (exec id) s = some s' ∧
      s.pc false = .critical false ∧ s.pc true = .testFinished true ∧ (∀ v t, s.pc v = .critical t → false = v) ∧
      s'.pc true = .critical true ∧ ∀ v t, s'.pc v = .critical t → true = v := by
  have hrun : ((contended.foldlM (guarded FreshRead (exec id)) newLock).bind fun s =>
      (handover.foldlM (guarded FreshRead (exec id)) s).map fun s' => [s.pc false, s.pc true, s'.pc true]) =
      some [.critical false, .testFinished true, .critical true] := by decide +kernel
  obtain ⟨s, h, hrun⟩ := Option.bind_eq_some_iff.mp hrun
  obtain ⟨s', h', hrun⟩ := Option.map_eq_some_iff.mp hrun
  simp only [List.cons.injEq, and_true] at hrun
  obtain ⟨hin, hwaits, hin'⟩ := hrun
  have hr : Reachable (mcs id) FreshRead s := .of_guarded (.init newLock_start) (fun _ _ _ h => h) h
  have hr' : Reachable (mcs id) FreshRead s' := hr.of_guarded (fun _ _ _ h => h) h'
  exact ⟨s, s', foldlM_of_guarded h, foldlM_of_guarded h', hin, hwaits, fun v t hv => freshRead_exclusive hr hin hv,
    hin', fun v t hv => freshRead_exclusive hr' hin' hv⟩

/-- The second thread reads the old flag of the first one's ticket, and both get in. -/
theorem exclusive_fails :
    ∃ s, [.lock false false, .lock true true, .run true, .run true, .run true, .run false, .run false].foldlM
        (exec (id : Bool → Bool)) newLock = some s ∧
      Reachable (mcs id) (fun _ _ => True) s ∧ s.pc false = .critical false ∧ s.pc true = .critical true := by
  have hrun : ([.lock false false, .lock true true, .run true, .run true, .run true, .run false,
      .run false].foldlM (exec (id : Bool → Bool)) newLock).map (fun s => (s.pc false, s.pc true)) =
      some (.critical false, .critical true) := by decide
  obtain ⟨s, hs, hpc⟩ := Option.map_eq_some_iff.mp hrun
  obtain ⟨h1, h2⟩ := Prod.mk.inj hpc
  exact ⟨s, hs, .foldlM (.init newLock_start) (fun _ _ _ h => h) hs, h1, h2⟩

end GenericOs.Mcs
