import GenericOs.Mcs.Waiting

/-!
# First come, first served

A log of the exchanges, of the threads that get in and of those that leave. Threads get in in
the order of their exchanges, and the one whose turn it is does so within three steps of its own.
-/

namespace GenericOs.Mcs

open Transition (System Reachable Steps guarded foldlM_of_guarded)

variable {Thread Ticket : Type}

/-- Who called `MCSLock` and made the exchange, who returned from it, and who called `MCSUnlock`. -/
structure Log (Thread Ticket : Type) where
  locked : List (Thread × Ticket)
  entered : List (Thread × Ticket)
  left : List (Thread × Ticket)
  deriving DecidableEq

/-- What a step from `s` to `s'` adds. -/
def Log.after (l : Log Thread Ticket) (s s' : State Thread Ticket) : Event Thread Ticket → Log Thread Ticket
  | .lock u t => { l with locked := l.locked ++ [(u, t)] }
  | .run u =>
    match s.pc u, s'.pc u with
    | .critical t, _ => { l with left := l.left ++ [(u, t)] }
    | _, .critical t => { l with entered := l.entered ++ [(u, t)] }
    | _, _ => l

variable [DecidableEq Thread] [DecidableEq Ticket]

def logged (owner : Ticket → Thread) :
    System (State Thread Ticket × Log Thread Ticket) (Event Thread Ticket) where
  init x := Start x.1 ∧ x.2 = ⟨[], [], []⟩
  step x e x' := exec owner x.1 e = some x'.1 ∧ x'.2 = x.2.after x.1 x'.1 e

def execLogged (owner : Ticket → Thread) (x : State Thread Ticket × Log Thread Ticket) (e : Event Thread Ticket) :
    Option (State Thread Ticket × Log Thread Ticket) :=
  (exec owner x.1 e).map fun s' => (s', x.2.after x.1 s' e)

variable {owner : Ticket → Thread} {s s' : State Thread Ticket} {e : Event Thread Ticket} {u v : Thread}
  {t p : Ticket} {q q' : List (Thread × Ticket)} {before before' : Option Ticket} {l : Log Thread Ticket}
  {x x' : State Thread Ticket × Log Thread Ticket}

theorem execLogged_step (h : execLogged owner x e = some x') : (logged owner).step x e x' := by
  obtain ⟨s', hexec, rfl⟩ := Option.map_eq_some_iff.mp h
  exact ⟨hexec, rfl⟩

omit [DecidableEq Thread] [DecidableEq Ticket] in
theorem Log.after_leave (hpc : s.pc u = .critical t) :
    l.after s s' (.run u) = { l with left := l.left ++ [(u, t)] } := by
  simp [Log.after, hpc]

omit [DecidableEq Thread] [DecidableEq Ticket] in
theorem Log.after_enter (hpc : ∀ t, s.pc u ≠ .critical t) (hpc' : s'.pc u = .critical t) :
    l.after s s' (.run u) = { l with entered := l.entered ++ [(u, t)] } := by
  unfold Log.after
  cases h : s.pc u with
  | critical t' => exact absurd h (hpc t')
  | _ => simp [hpc', h]

omit [DecidableEq Thread] [DecidableEq Ticket] in
theorem Log.after_stay (hpc : ∀ t, s.pc u ≠ .critical t) (hpc' : ∀ t, s'.pc u ≠ .critical t) :
    l.after s s' (.run u) = l := by
  unfold Log.after
  cases h : s.pc u with
  | critical t' => exact absurd h (hpc t')
  | _ =>
    cases h' : s'.pc u with
    | critical t' => exact absurd h' (hpc' t')
    | _ => simp [h, h']

/-! ## The queue and the log -/

/-- The threads that are in are none, or one, and then it is the first of the queue. -/
inductive Inside (s : State Thread Ticket) : List (Thread × Ticket) → List (Thread × Ticket) → Prop
  | nobody {q : List (Thread × Ticket)} (h : ∀ u t, s.pc u ≠ .critical t) : Inside s q []
  | first {u : Thread} {t : Ticket} {q : List (Thread × Ticket)} (h : s.pc u = .critical t) :
    Inside s ((u, t) :: q) [(u, t)]

/-- The queue is what has been exchanged and has not left. -/
structure Tracks (s : State Thread Ticket) (l : Log Thread Ticket) (before : Option Ticket)
    (q : List (Thread × Ticket)) : Prop where
  queue : Queue s before q
  locked : l.locked = l.left ++ q
  entered : ∃ inside, l.entered = l.left ++ inside ∧ Inside s q inside

omit [DecidableEq Thread] [DecidableEq Ticket] in
theorem Start.tracks (h : Start s) : Tracks s ⟨[], [], []⟩ none [] :=
  ⟨h.queue, rfl, [], rfl, .nobody fun u t => by simp [h.idle u]⟩

omit [DecidableEq Thread] [DecidableEq Ticket] in
theorem Queue.critical (hQ : Queue s before q) (hpc : s.pc u = .critical t) : ∃ q', q = (u, t) :: q' :=
  (hQ.queued.critical (hQ.mem (by rw [hpc]; rfl) (by simp [hpc])) hpc).2

omit [DecidableEq Thread] [DecidableEq Ticket] in
/-- A step of a thread that is neither in nor gets in. -/
theorem Inside.stay {inside : List (Thread × Ticket)} (h : Inside s q inside) (hpc : ∀ t, s.pc u ≠ .critical t)
    (hpc' : ∀ t, s'.pc u ≠ .critical t) (hother : ∀ v, v ≠ u → s'.pc v = s.pc v) (hq : ∃ more, q' = q ++ more) :
    Inside s' q' inside := by
  obtain ⟨more, rfl⟩ := hq
  cases h with
  | nobody h =>
    refine .nobody fun v t => ?_
    by_cases hv : v = u
    · subst hv; exact hpc' t
    · rw [hother v hv]; exact h v t
  | @first v t q h =>
    have hv : v ≠ u := by
      rintro rfl
      exact hpc t h
    exact .first (by rw [hother v hv, h])

theorem Tracks.step (h : Tracks s l before q) (ho : Owned owner s) (hf : FreshRead s e) (hm : Moves owner s e s') :
    ∃ before' q', Tracks s' (l.after s s' e) before' q' ∧ Shifts s e before q before' q' := by
  obtain ⟨inside, hentered, hin⟩ := h.entered
  obtain ⟨before', q', hQ', hshift⟩ := h.queue.shifts ho hf hm
  refine ⟨before', q', ?_, hshift⟩
  have hlocal : ∀ u, (∃ t, e = .lock u t) ∨ e = .run u → ∀ v, v ≠ u → s'.pc v = s.pc v := by
    rintro u (⟨t, rfl⟩ | rfl)
    · exact hm.isLocal_lock.pc
    · exact (hm.isLocal ho).pc
  cases hshift with
  | @lock u t =>
    have hother := hlocal u (Or.inl ⟨t, rfl⟩)
    have hpc : s.pc u = .idle ∧ s'.pc u = .write t s.top := by
      cases hm with
      | lock hpc => exact ⟨hpc, Function.update_self ..⟩
    refine ⟨hQ', ?_, inside, hentered, hin.stay (by simp [hpc.1]) (by simp [hpc.2]) hother ⟨_, rfl⟩⟩
    simp only [Log.after, h.locked, List.append_assoc]
  | @leave u t _ _ hpc =>
    have hother := hlocal u (Or.inr rfl)
    have hpc' : s'.pc u = .clear t := by
      cases hm with
      | finish hc =>
        rw [hpc] at hc
        cases hc
        exact Function.update_self ..
      | write hc | free hc | wait hc | enter hc | again hc | clear hc =>
        rw [hpc] at hc
        cases hc
    obtain rfl : inside = [(u, t)] := by
      cases hin with
      | nobody hno => exact absurd hpc (hno u t)
      | first => rfl
    rw [Log.after_leave hpc]
    refine ⟨hQ', by simp [h.locked], [], by simp [hentered], .nobody fun v t' hv => ?_⟩
    by_cases hvu : v = u
    · subst hvu
      rw [hpc'] at hv
      cases hv
    · -- Another thread that is in would have been the first as well.
      rw [hother v hvu] at hv
      obtain ⟨q'', he⟩ := h.queue.critical hv
      exact hvu (congrArg Prod.fst (List.cons.inj he).1).symm
  | @stay u _ _ hpc =>
    have hother := hlocal u (Or.inr rfl)
    by_cases hpc' : ∃ t, s'.pc u = .critical t
    · obtain ⟨t, hpc'⟩ := hpc'
      obtain ⟨q'', rfl⟩ := hQ'.critical hpc'
      obtain rfl : inside = [] := by
        cases hin with
        | nobody => rfl
        | first hc => exact absurd hc (hpc t)
      rw [Log.after_enter hpc hpc']
      exact ⟨hQ', h.locked, [(u, t)], by simp [hentered], .first hpc'⟩
    · rw [not_exists] at hpc'
      rw [Log.after_stay hpc hpc']
      exact ⟨hQ', h.locked, inside, hentered, hin.stay hpc hpc' hother ⟨[], by simp⟩⟩

/-- The steps that read no old flag. -/
def Fresh (x : State Thread Ticket × Log Thread Ticket) (e : Event Thread Ticket) : Prop := FreshRead x.1 e

instance [Fintype Thread] [Fintype Ticket] (x : State Thread Ticket × Log Thread Ticket) (e : Event Thread Ticket) :
    Decidable (Fresh x e) := inferInstanceAs (Decidable (FreshRead x.1 e))

theorem reachable_tracks (hr : Reachable (logged owner) Fresh x) :
    Owned owner x.1 ∧ ∃ before q, Tracks x.1 x.2 before q := by
  apply hr.invariant (P := fun x => Owned owner x.1 ∧ ∃ before q, Tracks x.1 x.2 before q)
  · rintro ⟨s, l⟩ ⟨hs, rfl⟩
    exact ⟨hs.owned, _, _, hs.tracks⟩
  · rintro ⟨s, l⟩ e ⟨s', l'⟩ ⟨ho, before, q, h⟩ hf ⟨hexec, hl⟩
    have hm := exec_moves hexec
    obtain ⟨before', q', h', -⟩ := h.step ho hf hm
    rw [hl]
    exact ⟨ho.step hm, before', q', h'⟩

/-- Without reads of old flags, threads get in in the order of their exchanges, each after the one before it left. -/
theorem fifo (hr : Reachable (logged owner) Fresh x) :
    x.2.entered <+: x.2.locked ∧ x.2.left <+: x.2.entered ∧ x.2.entered.length ≤ x.2.left.length + 1 := by
  obtain ⟨-, before, q, h⟩ := reachable_tracks hr
  obtain ⟨inside, hentered, hin⟩ := h.entered
  rw [h.locked, hentered]
  refine ⟨?_, List.prefix_append .., ?_⟩
  · rw [List.prefix_append_right_inj]
    cases hin with
    | nobody => exact List.nil_prefix
    | first => exact List.cons_prefix_cons.mpr ⟨rfl, List.nil_prefix⟩
  · cases hin with
    | nobody => simp
    | first => simp

def noLog : Log Bool Bool := ⟨[], [], []⟩

theorem newLock_init : (logged id).init (newLock, noLog) := ⟨newLock_start, rfl⟩

/-- Both have got in, and the first one has left. -/
theorem fifo_handover :
    ∃ x, (contended ++ handover).foldlM (execLogged id) (newLock, noLog) = some x ∧
      x.2 = ⟨[(false, false), (true, true)], [(false, false), (true, true)], [(false, false)]⟩ ∧
      x.2.entered <+: x.2.locked ∧ x.2.left <+: x.2.entered ∧ x.2.entered.length ≤ x.2.left.length + 1 := by
  have hrun : ((contended ++ handover).foldlM (guarded Fresh (execLogged id)) (newLock, noLog)).map Prod.snd =
      some ⟨[(false, false), (true, true)], [(false, false), (true, true)], [(false, false)]⟩ := by decide +kernel
  obtain ⟨x, h, hlog⟩ := Option.map_eq_some_iff.mp hrun
  have hr : Reachable (logged id) Fresh x := .of_guarded (.init newLock_init) (fun _ _ _ => execLogged_step) h
  exact ⟨x, foldlM_of_guarded h, hlog, fifo hr⟩

/-! ## Whose turn it is -/

/-- While nobody is in, the ticket that was in last stays finished. -/
def Passed (s : State Thread Ticket) (before : Option Ticket) : Prop :=
  (∀ u t, s.pc u ≠ .critical t) → ∀ p, before = some p →
    s.finished p = true ∧ ∀ v prevTop, s.pc v ≠ .write p prevTop

omit [DecidableEq Thread] [DecidableEq Ticket] in
theorem passed_none : Passed s none := by
  rintro - p ⟨⟩

omit [DecidableEq Thread] [DecidableEq Ticket] in
/-- The last ticket is not exchanged again while the first of the queue, or `top`, leads to it. -/
theorem Queue.not_reused (hQ : Queue s before q) (hno : ∀ u t, s.pc u ≠ .critical t)
    (hc : NoReuse s (.lock u t)) : before ≠ some t := by
  rintro rfl
  obtain ⟨htop, hpending, huses⟩ := hc
  have hqueued := hQ.queued
  rcases q with _ | ⟨⟨v, t'⟩, q⟩
  · exact htop hqueued
  · cases hqueued.1 with
    | write hpc => exact hpending v t' hpc
    | testPrev hpc hprev => exact huses v t' (Or.inl hpc) hprev
    | testFinished hpc hprev => exact huses v t' (Or.inr (Or.inl hpc)) hprev
    | critical hpc => exact hno v t' hpc

theorem Passed.step (h : Passed s before) (hQ : Queue s before q) (ho : Owned owner s) (hc : NoReuse s e)
    (hm : Moves owner s e s') (hshift : Shifts s e before q before' q') : Passed s' before' := by
  intro hno p hp
  cases hshift with
  | @lock u t =>
    have hother := hm.isLocal_lock.pc
    cases hm with
    | lock hpc =>
      have hold : ∀ v t', s.pc v ≠ .critical t' := by
        intro v t' hv
        refine hno v t' ?_
        rw [hother v (by rintro rfl; rw [hpc] at hv; cases hv), hv]
      have hne : p ≠ t := by
        rintro rfl
        exact hQ.not_reused hold hc hp
      obtain ⟨hfin, hwrite⟩ := h hold p hp
      refine ⟨hfin, fun v prevTop hv => ?_⟩
      simp only [Function.update_apply] at hv
      split_ifs at hv with hvu
      · cases hv
        exact hne rfl
      · exact hwrite v prevTop hv
  | @leave u t _ _ hpc =>
    obtain rfl := Option.some.inj hp
    have hother := (hm.isLocal ho).pc
    cases hm with
    | finish hfin =>
      rw [hpc] at hfin
      cases hfin
      refine ⟨Function.update_self .., fun v prevTop hv => ?_⟩
      have howner := ho u t (by rw [hpc]; rfl)
      simp only [Function.update_apply] at hv
      split_ifs at hv with hvu
      exact hvu ((ho v t (by rw [hv]; rfl)).symm.trans howner)
    | write hc | free hc | wait hc | enter hc | again hc | clear hc =>
      rw [hpc] at hc
      cases hc
  | @stay u _ _ hpc =>
    have hother := (hm.isLocal ho).pc
    have hold : ∀ v t', s.pc v ≠ .critical t' := by
      intro v t' hv
      by_cases hvu : v = u
      · exact hpc t' (hvu ▸ hv)
      · exact hno v t' (by rw [hother v hvu, hv])
    obtain ⟨hfin, hwrite⟩ := h hold p hp
    have hkeep : ∀ pc, (∀ prevTop, pc ≠ .write p prevTop) →
        ∀ v prevTop, Function.update s.pc u pc v ≠ .write p prevTop := by
      intro pc hne v prevTop
      rw [Function.update_apply]
      split_ifs
      · exact hne prevTop
      · exact hwrite v prevTop
    cases hm with
    | @write _ t prevTop hw =>
      have hne : p ≠ t := by
        rintro rfl
        exact hwrite u prevTop hw
      exact ⟨(Function.update_of_ne hne ..).trans hfin, hkeep _ (by simp)⟩
    | free | enter => exact absurd (Function.update_self ..) (hno u _)
    | wait | again => exact ⟨hfin, hkeep _ (by simp)⟩
    | finish hc => exact absurd hc (hpc _)
    | clear => exact ⟨hfin, hkeep _ (by simp)⟩

/-- A thread that tests `Prev->Finished` has a `Prev`. -/
def Tested (s : State Thread Ticket) : Prop := ∀ u t, s.pc u = .testFinished t → s.prev t ≠ none

theorem Tested.step (h : Tested s) (ho : Owned owner s) (hm : Moves owner s e s') : Tested s' := by
  have hother : ∀ u, Local owner u s s' → ∀ v t, v ≠ u → s'.pc v = .testFinished t → s'.prev t ≠ none := by
    intro u hl v t hv hpc
    rw [hl.pc v hv] at hpc
    have ht : owner t ≠ u := by
      rw [ho v t (by rw [hpc]; rfl)]
      exact hv
    rw [hl.prev t ht]
    exact h v t hpc
  intro v t hpc
  cases e with
  | lock u t' =>
    by_cases hv : v = u
    · subst hv
      cases hm
      simp at hpc
    · exact hother u hm.isLocal_lock v t hv hpc
  | run u =>
    by_cases hv : v = u
    · subst hv
      cases hm with
      | wait _ hprev =>
        simp only [Function.update_self, Pc.testFinished.injEq] at hpc
        rw [← hpc, hprev]
        simp
      | _ => simp at hpc
    · exact hother u (hm.isLocal ho) v t hv hpc

/-- The steps that read no old flag and put no ticket back too early. -/
def Careful (x : State Thread Ticket × Log Thread Ticket) (e : Event Thread Ticket) : Prop :=
  FreshRead x.1 e ∧ NoReuse x.1 e

instance [Fintype Thread] [Fintype Ticket] (x : State Thread Ticket × Log Thread Ticket) (e : Event Thread Ticket) :
    Decidable (Careful x e) := inferInstanceAs (Decidable (FreshRead x.1 e ∧ NoReuse x.1 e))

/-- `u` is the first of the queue, with the ticket `t`, and it is not in yet. -/
structure Turn (owner : Ticket → Thread) (s : State Thread Ticket) (l : Log Thread Ticket)
    (before : Option Ticket) (q : List (Thread × Ticket)) (u : Thread) (t : Ticket) : Prop where
  owned : Owned owner s
  tested : Tested s
  tracks : Tracks s l before ((u, t) :: q)
  passed : Passed s before
  out : ∀ t, s.pc u ≠ .critical t

/-- The steps that are left when it is the thread's turn. -/
def Pc.rank : Pc Ticket → Nat
  | .write .. => 3
  | .testPrev _ => 2
  | .testFinished _ => 1
  | _ => 0

omit [DecidableEq Thread] [DecidableEq Ticket] in
theorem Tracks.nobody (h : Tracks s l before ((u, t) :: q)) (hout : ∀ t, s.pc u ≠ .critical t) :
    l.entered = l.left ∧ ∀ v t, s.pc v ≠ .critical t := by
  obtain ⟨inside, hentered, hin⟩ := h.entered
  cases hin with
  | nobody hno => exact ⟨by rw [hentered, List.append_nil], hno⟩
  | first hc => exact absurd hc (hout t)

theorem Turn.goes_on (h : Turn owner s l before q u t) :
    0 < (s.pc u).rank ∧ (s.pc u).rank ≤ 3 ∧ (∃ s', exec owner s (.run u) = some s') ∧ Careful (s, l) (.run u) := by
  obtain ⟨-, hnobody⟩ := h.tracks.nobody h.out
  have hpassed := h.passed hnobody
  have hw := h.tracks.queue.queued.1
  unfold exec
  cases hw with
  | write hpc =>
    simp only [hpc]
    refine ⟨by simp [Pc.rank], by simp [Pc.rank], ⟨_, rfl⟩, ?_, ?_⟩
    · rintro _ t' p ⟨⟩ hpc'
      rw [hpc] at hpc'
      cases hpc'
    · intro x p hpc' v prevTop hv
      rw [hpc] at hpc'
      cases hpc'
      exact absurd hv ((hpassed p rfl).2 v prevTop)
  | testPrev hpc =>
    have hcareful : Careful (s, l) (.run u) := by
      constructor
      · rintro _ t' p ⟨⟩ hpc'
        rw [hpc] at hpc'
        cases hpc'
      · intro x p hpc'
        rw [hpc] at hpc'
        cases hpc'
    simp only [hpc]
    refine ⟨by simp [Pc.rank], by simp [Pc.rank], ?_, hcareful⟩
    cases s.prev t with
    | none => exact ⟨_, rfl⟩
    | some p => exact ⟨_, rfl⟩
  | testFinished hpc hprev =>
    obtain ⟨p, hp⟩ := Option.ne_none_iff_exists'.mp (h.tested u t hpc)
    obtain ⟨hfin, hwrite⟩ := hpassed p (hprev.symm.trans hp)
    simp only [hpc, hp, hfin]
    refine ⟨by simp [Pc.rank], by simp [Pc.rank], ⟨_, rfl⟩, ?_, ?_⟩
    · rintro _ t' p' ⟨⟩ hpc' hp' -
      rw [hpc] at hpc'
      cases hpc'
      rw [hp] at hp'
      cases hp'
      exact hwrite
    · intro x p hpc'
      rw [hpc] at hpc'
      cases hpc'
  | critical hpc => exact absurd hpc (h.out t)

/-- It stays the thread's turn until it gets in, and it comes closer with each step of its own. -/
theorem Turn.step (h : Turn owner s l before q u t) (hc : Careful (s, l) e) (hm : Moves owner s e s') :
    (l.after s s' e).entered = l.left ++ [(u, t)] ∨
      (l.after s s' e).left = l.left ∧ (∃ before q, Turn owner s' (l.after s s' e) before q u t) ∧
        (if e = .run u then 1 else 0) + (s'.pc u).rank ≤ (s.pc u).rank := by
  obtain ⟨hentered, hnobody⟩ := h.tracks.nobody h.out
  obtain ⟨before', q', htracks, hshift⟩ := h.tracks.step h.owned hc.1 hm
  have hpassed := h.passed.step h.tracks.queue h.owned hc.2 hm hshift
  have hstays : (∀ t, s'.pc u ≠ .critical t) → (∃ more, q' = (u, t) :: more) →
      ∃ before q, Turn owner s' (l.after s s' e) before q u t := by
    rintro hout ⟨more, rfl⟩
    exact ⟨_, _, h.owned.step hm, h.tested.step h.owned hm, htracks, hpassed, hout⟩
  have hw := h.tracks.queue.queued.1
  cases hshift with
  | @lock v t' =>
    right
    have hvu : u ≠ v := by
      rintro rfl
      cases hm with
      | lock hpc =>
        have ht := hw.ticket
        rw [hpc] at ht
        cases ht
    have hpc := hm.isLocal_lock.pc u hvu
    exact ⟨rfl, hstays (by rw [hpc]; exact h.out) ⟨_, rfl⟩, by simp [hpc]⟩
  | leave hpc => exact absurd hpc (h.out t)
  | @stay v _ _ hout =>
    by_cases hvu : u = v
    · subst hvu
      by_cases hin : ∃ t', s'.pc u = .critical t'
      · obtain ⟨t', hin⟩ := hin
        obtain ⟨q'', he⟩ := htracks.queue.critical hin
        cases he
        rw [Log.after_enter h.out hin]
        exact Or.inl (by simp [hentered])
      · right
        rw [not_exists] at hin
        refine ⟨by rw [Log.after_stay h.out hin], hstays hin ⟨_, rfl⟩, ?_⟩
        cases hm with
        | write hpc => simp [hpc, Pc.rank]
        | wait hpc => simp [hpc, Pc.rank]
        | free | enter => exact absurd (Function.update_self ..) (hin _)
        | finish hpc => exact absurd hpc (h.out _)
        | clear hpc =>
          cases hw with
          | write h | testPrev h | testFinished h | critical h =>
            rw [hpc] at h
            cases h
        | again hpc hprev hfin =>
          -- The ticket in front is finished.
          obtain ⟨rfl, hbefore, -⟩ := hw.of_test (Or.inr hpc)
          have hpassed := (h.passed hnobody _ (hbefore.symm.trans hprev)).1
          rw [hfin] at hpassed
          cases hpassed
    · right
      have hpc := (hm.isLocal h.owned).pc u hvu
      have hleft : (l.after s s' (.run v)).left = l.left := by
        by_cases hin : ∃ t', s'.pc v = .critical t'
        · obtain ⟨t', hin⟩ := hin
          rw [Log.after_enter hout hin]
        · rw [Log.after_stay hout (not_exists.mp hin)]
      exact ⟨hleft, hstays (by rw [hpc]; exact h.out) ⟨_, rfl⟩, by simp [hpc, Ne.symm hvu]⟩

omit [DecidableEq Thread] [DecidableEq Ticket] in
theorem Log.after_entered (l : Log Thread Ticket) : ∃ more, (l.after s s' e).entered = l.entered ++ more := by
  unfold Log.after
  split
  · exact ⟨[], by simp⟩
  · split
    · exact ⟨[], by simp⟩
    · exact ⟨_, rfl⟩
    · exact ⟨[], by simp⟩

theorem entered_grows {allowed : State Thread Ticket × Log Thread Ticket → Event Thread Ticket → Prop}
    {es : List (Event Thread Ticket)} (hsteps : Steps (logged owner) allowed x es x') :
    x.2.entered <+: x'.2.entered := by
  induction hsteps with
  | nil => exact List.prefix_refl _
  | @cons x x₁ x₂ e es _ hstep _ ih =>
    obtain ⟨more, hmore⟩ : ∃ more, (x.2.after x.1 x₁.1 e).entered = x.2.entered ++ more := x.2.after_entered
    rw [hstep.2, hmore] at ih
    exact (List.prefix_append ..).trans ih

theorem reachable_careful (hr : Reachable (logged owner) Careful x) :
    Owned owner x.1 ∧ Tested x.1 ∧ ∃ before q, Tracks x.1 x.2 before q ∧ Passed x.1 before := by
  apply hr.invariant (P := fun x => Owned owner x.1 ∧ Tested x.1 ∧
    ∃ before q, Tracks x.1 x.2 before q ∧ Passed x.1 before)
  · rintro ⟨s, l⟩ ⟨hs, rfl⟩
    refine ⟨hs.owned, fun u t hpc => ?_, none, [], hs.tracks, passed_none⟩
    rw [hs.idle] at hpc
    cases hpc
  · rintro ⟨s, l⟩ e ⟨s', l'⟩ ⟨ho, htested, before, q, h, hp⟩ hc ⟨hexec, hl⟩
    have hm := exec_moves hexec
    obtain ⟨before', q', h', hshift⟩ := h.step ho hc.1 hm
    rw [hl]
    exact ⟨ho.step hm, htested.step ho hm, before', q', h', hp.step h.queue ho hc.2 hm hshift⟩

theorem reachable_turn {rest : List (Thread × Ticket)} (hr : Reachable (logged owner) Careful x)
    (hturn : x.2.locked = x.2.left ++ (u, t) :: rest) (hout : x.2.entered = x.2.left) :
    ∃ before, Turn owner x.1 x.2 before rest u t := by
  obtain ⟨ho, htested, before, q, h, hp⟩ := reachable_careful hr
  obtain rfl : q = (u, t) :: rest := by
    rw [h.locked] at hturn
    exact List.append_cancel_left hturn
  refine ⟨before, ho, htested, h, hp, fun t' hc => ?_⟩
  obtain ⟨inside, hentered, hin⟩ := h.entered
  cases hin with
  | nobody hno => exact hno u t' hc
  | first =>
    rw [hout] at hentered
    simp at hentered

/-- When all threads before it have left, the next one gets in within three steps of its own, whatever the
others do, and none of these steps fails or breaks the rules. -/
theorem next_enters {rest : List (Thread × Ticket)} {es : List (Event Thread Ticket)}
    (hr : Reachable (logged owner) Careful x) (hturn : x.2.locked = x.2.left ++ (u, t) :: rest)
    (hout : x.2.entered = x.2.left) (hsteps : Steps (logged owner) Careful x es x') :
    x.2.left ++ [(u, t)] <+: x'.2.entered ∨
      (es.count (.run u) < 3 ∧ (∃ s, exec owner x'.1 (.run u) = some s) ∧ Careful x' (.run u)) := by
  obtain ⟨before, hstart⟩ := reachable_turn hr hturn hout
  suffices hall : x.2.left ++ [(u, t)] <+: x'.2.entered ∨
      ((∃ before q, Turn owner x'.1 x'.2 before q u t) ∧
        es.count (.run u) + (x'.1.pc u).rank ≤ (x.1.pc u).rank) by
    refine hall.imp_right ?_
    rintro ⟨⟨_, _, hlast⟩, hle⟩
    obtain ⟨hpos, -, hrun, hcareful⟩ := hlast.goes_on
    obtain ⟨-, h3, -, -⟩ := hstart.goes_on
    exact ⟨by omega, hrun, hcareful⟩
  clear hr hturn hout
  induction hsteps generalizing before rest with
  | nil => exact Or.inr ⟨⟨_, _, hstart⟩, by simp⟩
  | @cons x x₁ x₂ e es hc hstep hrest ih =>
    obtain ⟨hexec, hlog⟩ := hstep
    rcases hstart.step hc (exec_moves hexec) with hin | ⟨hleft, ⟨before₁, q₁, hturn⟩, hle⟩
    · left
      rw [← hlog] at hin
      rw [← hin]
      exact entered_grows hrest
    · rw [← hlog] at hleft hturn
      rcases ih before₁ hturn with hin | ⟨hlast, hle₂⟩
      · left
        rwa [hleft] at hin
      · refine Or.inr ⟨hlast, ?_⟩
        rw [List.count_cons]
        simp only [beq_iff_eq]
        omega

/-- The first thread has unlocked, the second one has still to see it. After three steps of its own it must have been
in. -/
theorem next_enters_handover :
    ∃ x x', (contended ++ [Event.run false]).foldlM (execLogged id) (newLock, noLog) = some x ∧
      [Event.run false, .run true, .run true, .run true].foldlM (execLogged id) x = some x' ∧
      x.2 = ⟨[(false, false), (true, true)], [(false, false)], [(false, false)]⟩ ∧
      [(false, false), (true, true)] <+: x'.2.entered := by
  have hrun : (((contended ++ [Event.run false]).foldlM (guarded Careful (execLogged id)) (newLock, noLog)).bind
      fun x => ([Event.run false, .run true, .run true, .run true].foldlM (guarded Careful (execLogged id)) x).map
        fun _ => x.2) = some ⟨[(false, false), (true, true)], [(false, false)], [(false, false)]⟩ := by
    decide +kernel
  obtain ⟨x, h, hrun⟩ := Option.bind_eq_some_iff.mp hrun
  obtain ⟨x', h', hlog⟩ := Option.map_eq_some_iff.mp hrun
  have hr : Reachable (logged id) Careful x := .of_guarded (.init newLock_init) (fun _ _ _ => execLogged_step) h
  have hsteps := Steps.of_guarded (S := logged id) (fun _ _ _ => execLogged_step) h'
  refine ⟨x, x', foldlM_of_guarded h, foldlM_of_guarded h', hlog, ?_⟩
  have hturn : x.2.locked = x.2.left ++ (true, true) :: [] := by
    rw [hlog]
    rfl
  rcases next_enters hr hturn (by rw [hlog]) hsteps with hin | hfew
  · rwa [hlog] at hin
  · exact absurd hfew.1 (by decide)

end GenericOs.Mcs
