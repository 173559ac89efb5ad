import GenericOs.Library.Liveness
import GenericOs.Mcs.Fifo

/-!
# Nobody waits for ever

In a run in which no thread stops in the middle, the thread that is in leaves, the next one gets in, and so on
through the queue.
-/

namespace GenericOs.Mcs

open Transition (Run Reachable guarded guarded_some)

variable {Thread Ticket : Type} [DecidableEq Thread] [DecidableEq Ticket] {owner : Ticket → Thread}
  {s s' : State Thread Ticket} {l : Log Thread Ticket} {a : Event Thread Ticket} {u v : Thread} {t : Ticket}
  {left : List (Thread × Ticket)} {x : ℕ → State Thread Ticket × Log Thread Ticket}
  {y : State Thread Ticket × Log Thread Ticket} {e : ℕ → Option (Event Thread Ticket)} {k : ℕ}

/-- A thread between calls may stay there. Any other goes on, also from its critical section. -/
def Fair (x : ℕ → State Thread Ticket × Log Thread Ticket) (e : ℕ → Option (Event Thread Ticket)) : Prop :=
  ∀ u j, ∃ i ≥ j, e i = some (.run u) ∨ (x i).1.pc u = .idle

omit [DecidableEq Thread] [DecidableEq Ticket] in
theorem Log.after_locked (l : Log Thread Ticket) : l.locked <+: (l.after s s' a).locked := by
  unfold Log.after
  split
  · exact List.prefix_append ..
  · split <;> exact List.prefix_refl _

omit [DecidableEq Thread] [DecidableEq Ticket] in
theorem Log.after_left (l : Log Thread Ticket) :
    (l.after s s' a).left = l.left ∨ l.left.length < (l.after s s' a).left.length := by
  unfold Log.after
  split
  · exact Or.inl rfl
  · split
    · exact Or.inr (by simp)
    · exact Or.inl rfl
    · exact Or.inl rfl

omit [DecidableEq Thread] [DecidableEq Ticket] in
theorem Fair.goes_on {P : State Thread Ticket × Log Thread Ticket → Prop} (hfair : Fair x e)
    (hbusy : ∀ y, P y → y.1.pc u ≠ .idle) (j : ℕ) : ∃ i ≥ j, e i = some (.run u) ∨ ¬ P (x i) := by
  obtain ⟨i, hi, hrun | hidle⟩ := hfair u j
  · exact ⟨i, hi, Or.inl hrun⟩
  · exact ⟨i, hi, Or.inr fun hP => hbusy _ hP hidle⟩

/-! ## One thread -/

/-- `u` is in, and these have left. -/
structure Holds (owner : Ticket → Thread) (u : Thread) (t : Ticket) (left : List (Thread × Ticket))
    (x : State Thread Ticket × Log Thread Ticket) : Prop where
  owned : Owned owner x.1
  inside : x.1.pc u = .critical t
  left : x.2.left = left

theorem Holds.step (h : Holds owner u t left (s, l)) (hm : Moves owner s a s') :
    left.length < (l.after s s' a).left.length ∨ Holds owner u t left (s', l.after s s' a) ∧ a ≠ .run u := by
  obtain ⟨howned, hinside, rfl⟩ := h
  have hlog : (l.after s s' a).left = l.left ∨ l.left.length < (l.after s s' a).left.length := l.after_left
  rcases hlog with hleft | hmore
  · right
    cases a with
    | lock v t' =>
      have hvu : u ≠ v := by
        rintro rfl
        cases hm with
        | lock hpc => exact absurd (hpc.symm.trans hinside) (by simp)
      exact ⟨⟨howned.step hm, (hm.isLocal_lock.pc u hvu).trans hinside, hleft⟩, nofun⟩
    | run v =>
      have hvu : u ≠ v := by
        rintro rfl
        rw [Log.after_leave hinside] at hleft
        simp at hleft
      refine ⟨⟨howned.step hm, ((hm.isLocal howned).pc u hvu).trans hinside, hleft⟩, ?_⟩
      rintro ⟨⟩
      exact hvu rfl
  · exact Or.inl hmore

theorem Holds.leaves (hrun : Run (logged owner) Careful x e) (hfair : Fair x e) (h : Holds owner u t left (x k)) :
    ∃ j ≥ k, left.length < (x j).2.left.length := by
  have hbusy : ∀ y, Holds owner u t left y → y.1.pc u ≠ .idle := fun y hy => by
    rw [hy.inside]
    nofun
  refine hrun.leadsTo (P := Holds owner u t left) (Q := fun y => left.length < y.2.left.length) (l := .run u)
    (fun _ => 0) ?_ (hfair.goes_on hbusy) h
  rintro ⟨s, l⟩ a ⟨s', l'⟩ hP - ⟨hexec, hl : l' = l.after s s' a⟩
  subst hl
  exact (hP.step (exec_moves hexec)).imp_right fun ⟨hP', hne⟩ => ⟨hP', Nat.le_refl _, fun h => absurd h hne⟩

theorem Turn.enters {before : Option Ticket} {rest : List (Thread × Ticket)} (hrun : Run (logged owner) Careful x e)
    (hfair : Fair x e) (h : Turn owner (x k).1 (x k).2 before rest u t) :
    ∃ j ≥ k, (x j).2.entered = (x k).2.left ++ [(u, t)] := by
  let P : State Thread Ticket × Log Thread Ticket → Prop := fun y =>
    y.2.left = (x k).2.left ∧ ∃ before rest, Turn owner y.1 y.2 before rest u t
  have hbusy : ∀ y, P y → y.1.pc u ≠ .idle := by
    rintro y ⟨-, before, rest, hturn⟩ hidle
    have hpos := hturn.goes_on.1
    rw [hidle] at hpos
    exact absurd hpos (Nat.lt_irrefl 0)
  refine hrun.leadsTo (P := P) (Q := fun y => y.2.entered = (x k).2.left ++ [(u, t)]) (l := .run u)
    (fun y => (y.1.pc u).rank) ?_ (hfair.goes_on hbusy) ⟨rfl, before, rest, h⟩
  rintro ⟨s, l⟩ a ⟨s', l'⟩ ⟨hleft, before, rest, hturn⟩ hcareful ⟨hexec, hl : l' = l.after s s' a⟩
  subst hl
  rw [← hleft]
  rcases hturn.step hcareful (exec_moves hexec) with hin | ⟨hleft', hturn', hrank⟩
  · exact Or.inl hin
  · refine Or.inr ⟨⟨hleft'.trans hleft, hturn'⟩, Nat.le_trans (Nat.le_add_left _ _) hrank, ?_⟩
    rintro rfl
    rwa [if_pos rfl, Nat.add_comm] at hrank

/-! ## The whole queue -/

theorem locked_grows (hrun : Run (logged owner) Careful x e) {j : ℕ} (hkj : k ≤ j) :
    (x k).2.locked <+: (x j).2.locked := by
  apply hrun.mono (R := fun y y' => y.2.locked <+: y'.2.locked) (fun _ => List.prefix_refl _)
    (fun _ _ _ => List.IsPrefix.trans) _ hkj
  rintro ⟨s, l⟩ a ⟨s', l'⟩ - ⟨-, hl : l' = l.after s s' a⟩
  subst hl
  exact l.after_locked

theorem entered_stays (hrun : Run (logged owner) Careful x e) {j : ℕ} (hkj : k ≤ j) :
    (x k).2.entered <+: (x j).2.entered := by
  apply hrun.mono (R := fun y y' => y.2.entered <+: y'.2.entered) (fun _ => List.prefix_refl _)
    (fun _ _ _ => List.IsPrefix.trans) _ hkj
  rintro ⟨s, l⟩ a ⟨s', l'⟩ - ⟨-, hl : l' = l.after s s' a⟩
  subst hl
  obtain ⟨more, hmore⟩ : ∃ more, (l.after s s' a).entered = l.entered ++ more := l.after_entered
  exact ⟨more, hmore.symm⟩

/-- When all who got in have left, and somebody waits. -/
theorem next_gets_in (hrun : Run (logged owner) Careful x e) (hfair : Fair x e)
    (hout : (x k).2.entered.length ≤ (x k).2.left.length)
    (hwait : (x k).2.entered.length < (x k).2.locked.length) :
    ∃ j ≥ k, (x k).2.entered.length < (x j).2.entered.length := by
  obtain ⟨-, -, before, q, htracks, -⟩ := reachable_careful (hrun.reachable k)
  obtain ⟨inside, hentered, -⟩ := htracks.entered
  obtain rfl : inside = [] := by
    rw [hentered, List.length_append] at hout
    exact List.eq_nil_of_length_eq_zero (by omega)
  rw [List.append_nil] at hentered
  cases q with
  | nil =>
    rw [htracks.locked, List.append_nil, hentered] at hwait
    exact absurd hwait (Nat.lt_irrefl _)
  | cons first rest =>
    obtain ⟨u, t⟩ := first
    obtain ⟨before, hturn⟩ := reachable_turn (hrun.reachable k) htracks.locked hentered
    obtain ⟨j, hj, hin⟩ := hturn.enters hrun hfair
    exact ⟨j, hj, by rw [hin, hentered]; simp⟩

theorem somebody_gets_in (hrun : Run (logged owner) Careful x e) (hfair : Fair x e)
    (hwait : (x k).2.entered.length < (x k).2.locked.length) :
    ∃ j ≥ k, (x k).2.entered.length < (x j).2.entered.length := by
  obtain ⟨howned, -, before, q, htracks, -⟩ := reachable_careful (hrun.reachable k)
  obtain ⟨inside, hentered, hin⟩ := htracks.entered
  cases hin with
  | nobody =>
    exact next_gets_in hrun hfair (Nat.le_of_eq (by rw [hentered, List.append_nil])) hwait
  | @first u t q hpc =>
    obtain ⟨j, hj, hleft⟩ := Holds.leaves hrun hfair ⟨howned, hpc, rfl⟩
    have hlength : (x k).2.entered.length = (x k).2.left.length + 1 := by rw [hentered]; simp
    have hstays := (entered_stays hrun hj).length_le
    rcases Nat.lt_or_ge (x k).2.entered.length (x j).2.entered.length with hmore | hsame
    · exact ⟨j, hj, hmore⟩
    · have hlocked := (locked_grows hrun hj).length_le
      obtain ⟨i, hi, hmore⟩ := next_gets_in hrun hfair (k := j) (by omega) (by omega)
      exact ⟨i, by omega, by omega⟩

/-- In a fair run that keeps the rules, every thread that has made its exchange gets in, and they do in the order of
the exchanges. -/
theorem starvation_free (hrun : Run (logged owner) Careful x e) (hfair : Fair x e) (k : ℕ) :
    ∃ j ≥ k, (x k).2.locked <+: (x j).2.entered := by
  have hall : ∀ n ≤ (x k).2.locked.length, ∃ j ≥ k, n ≤ (x j).2.entered.length := by
    intro n hn
    induction n with
    | zero => exact ⟨k, Nat.le_refl k, Nat.zero_le _⟩
    | succ n ih =>
      obtain ⟨j, hj, hle⟩ := ih (by omega)
      rcases Nat.lt_or_ge n (x j).2.entered.length with hlt | hge
      · exact ⟨j, hj, hlt⟩
      · have hlocked := (locked_grows hrun hj).length_le
        obtain ⟨i, hi, hmore⟩ := somebody_gets_in hrun hfair (k := j) (by omega)
        exact ⟨i, by omega, by omega⟩
  obtain ⟨j, hj, hle⟩ := hall _ (Nat.le_refl _)
  obtain ⟨-, -, before, q, htracks, -⟩ := reachable_careful (hrun.reachable j)
  obtain ⟨inside, hentered, hin⟩ := htracks.entered
  refine ⟨j, hj, List.prefix_of_prefix_length_le (locked_grows hrun hj) ?_ hle⟩
  rw [hentered, htracks.locked, List.prefix_append_right_inj]
  cases hin with
  | nobody => exact List.nil_prefix
  | first => exact List.cons_prefix_cons.mpr ⟨rfl, List.nil_prefix⟩

/-! ## Tickets that are used once -/

/-- The ticket that `MCSLock` is called with is zeroed. `MCSUnlock` leaves it finished, so it serves one call only. -/
def Zeroed (x : State Thread Ticket × Log Thread Ticket) : Event Thread Ticket → Prop
  | .lock _ t => x.1.finished t = false ∧ x.1.prev t = none
  | .run _ => True

/-- The owner of the ticket is busy with it, or has been. -/
def Taken (owner : Ticket → Thread) (s : State Thread Ticket) (t : Ticket) : Prop :=
  s.finished t = true ∨ (s.pc (owner t)).ticket = some t

/-- Nothing leads to a ticket that has not been taken. -/
structure Single (owner : Ticket → Thread) (s : State Thread Ticket) : Prop where
  owned : Owned owner s
  blank : ∀ v p prevTop, s.pc v = .write p prevTop → s.finished p = false ∧ s.prev p = none
  cleared : ∀ v t, s.pc v = .clear t → s.finished t = true
  top : ∀ t, s.top = some t → Taken owner s t
  pending : ∀ v p t, s.pc v = .write p (some t) → Taken owner s t
  ahead : ∀ v p t, Uses s v p → s.prev p = some t → Taken owner s t

theorem Single.taken (h : Single owner s) (hm : Moves owner s a s') (ht : Taken owner s t) : Taken owner s' t := by
  have hother : ∀ u, Local owner u s s' → owner t ≠ u → Taken owner s' t := by
    intro u hl hne
    unfold Taken
    rwa [hl.finished t hne, hl.pc _ hne]
  cases a with
  | lock u t' =>
    by_cases hu : owner t = u
    · cases hm with
      | lock hpc =>
        refine Or.inl (ht.resolve_right ?_)
        rw [hu, hpc]
        nofun
    · exact hother u hm.isLocal_lock hu
  | run u =>
    by_cases hu : owner t = u
    · subst hu
      have hticket : ∀ pc, s.pc (owner t) = pc → s.finished t = true ∨ pc.ticket = some t := by
        rintro _ rfl
        exact ht
      unfold Taken
      cases hm with
      | @write _ t' _ hpc | @finish _ t' hpc =>
        rcases hticket _ hpc with hfinished | ⟨⟨⟩⟩
        · by_cases htt' : t = t'
          · subst htt'
            exact Or.inr (by simp [Pc.ticket])
          · exact Or.inl ((Function.update_of_ne htt' ..).trans hfinished)
        · exact Or.inr (by simp [Pc.ticket])
      | free hpc | wait hpc | enter hpc | again hpc =>
        refine (hticket _ hpc).imp_right fun hsame => ?_
        simpa [Pc.ticket] using hsame
      | clear hpc =>
        refine Or.inl ((hticket _ hpc).elim id ?_)
        rintro ⟨⟩
        exact h.cleared _ t hpc
    · exact hother u (hm.isLocal h.owned) hu

/-- Only the thread that made the step has to be looked at. -/
theorem Single.of_local (h : Single owner s) (hm : Moves owner s a s') (hl : Local owner u s s')
    (hblank : ∀ p prevTop, s'.pc u = .write p prevTop → s'.finished p = false ∧ s'.prev p = none)
    (hcleared : ∀ t, s'.pc u = .clear t → s'.finished t = true)
    (htop : ∀ t, s'.top = some t → Taken owner s' t)
    (hpending : ∀ p t, s'.pc u = .write p (some t) → Taken owner s' t)
    (hahead : ∀ p t, Uses s' u p → s'.prev p = some t → Taken owner s' t) : Single owner s' := by
  have hother : ∀ v, v ≠ u → ∀ p, (s'.pc v).ticket = some p →
      s'.finished p = s.finished p ∧ s'.prev p = s.prev p := by
    intro v hv p hp
    have hne : owner p ≠ u := by rwa [h.owned.step hm v p hp]
    exact ⟨hl.finished p hne, hl.prev p hne⟩
  refine ⟨h.owned.step hm, fun v p prevTop hpc => ?_, fun v p hpc => ?_, htop, fun v p t hpc => ?_,
    fun v p t huses hprev => ?_⟩
  · by_cases hv : v = u
    · exact hblank p prevTop (hv ▸ hpc)
    · obtain ⟨hfinished, hprev⟩ := hother v hv p (by rw [hpc]; rfl)
      rw [hfinished, hprev]
      exact h.blank v p prevTop ((hl.pc v hv).symm.trans hpc)
  · by_cases hv : v = u
    · exact hcleared p (hv ▸ hpc)
    · obtain ⟨hfinished, -⟩ := hother v hv p (by rw [hpc]; rfl)
      exact hfinished.trans (h.cleared v p ((hl.pc v hv).symm.trans hpc))
  · by_cases hv : v = u
    · exact hpending p t (hv ▸ hpc)
    · exact h.taken hm (h.pending v p t ((hl.pc v hv).symm.trans hpc))
  · by_cases hv : v = u
    · exact hahead p t (hv ▸ huses) hprev
    · obtain ⟨-, hsame⟩ := hother v hv p huses.ticket
      unfold Uses at huses
      rw [hl.pc v hv] at huses
      exact h.taken hm (h.ahead v p t huses (hsame.symm.trans hprev))

theorem Single.step (h : Single owner s) (hzero : Zeroed (s, l) a) (hm : Moves owner s a s') : Single owner s' := by
  have htaken : ∀ t, Taken owner s t → Taken owner s' t := fun t => h.taken hm
  cases a with
  | lock u t =>
    refine h.of_local hm hm.isLocal_lock ?_ ?_ ?_ ?_ ?_
    all_goals cases hm with | lock _ how
    · intro p prevTop hpc
      simp only [Function.update_self, Pc.write.injEq] at hpc
      rw [← hpc.1]
      exact hzero
    · intro t' hpc
      simp at hpc
    · rintro t' ⟨⟩
      exact Or.inr (by simp [how, Pc.ticket])
    · intro p t' hpc
      simp only [Function.update_self, Pc.write.injEq] at hpc
      exact htaken t' (h.top t' hpc.2)
    · intro p t' huses
      simp [Uses] at huses
  | run u =>
    refine h.of_local hm (hm.isLocal h.owned) ?_ ?_ ?_ ?_ ?_
    · intro p prevTop hpc
      cases hm <;> simp at hpc
    · intro t' hpc
      cases hm with
      | finish =>
        simp only [Function.update_self, Pc.clear.injEq] at hpc
        rw [hpc]
        exact Function.update_self ..
      | _ => simp at hpc
    · intro t' htop
      cases hm <;> exact htaken t' (h.top t' htop)
    · intro p t' hpc
      cases hm <;> simp at hpc
    · intro p t' huses hprev
      cases hm with
      | @write _ t prevTop hpc =>
        obtain rfl : t = p := by simpa [Uses] using huses
        obtain rfl : prevTop = some t' := by simpa using hprev
        exact htaken t' (h.pending u t t' hpc)
      | @free _ t hpc | @wait _ t _ hpc =>
        obtain rfl : t = p := by simpa [Uses] using huses
        exact htaken t' (h.ahead u t t' (Or.inl hpc) hprev)
      | @enter _ t _ hpc | @again _ t _ hpc =>
        obtain rfl : t = p := by simpa [Uses] using huses
        exact htaken t' (h.ahead u t t' (Or.inr (Or.inl hpc)) hprev)
      | finish | clear => simp [Uses] at huses

theorem Single.careful (h : Single owner s) (hzero : Zeroed (s, l) a) (hm : Moves owner s a s') :
    Careful (s, l) a := by
  constructor
  · rintro u t p rfl hpc hprev hfinished v prevTop hv
    have hold := (h.blank v p prevTop hv).1
    rw [hfinished] at hold
    cases hold
  · cases a with
    | lock u t =>
      have hnew : ¬ Taken owner s t := by
        cases hm with
        | lock hpc how =>
          rintro (hfinished | hticket)
          · rw [hzero.1] at hfinished
            cases hfinished
          · rw [how, hpc] at hticket
            cases hticket
      exact ⟨fun htop => hnew (h.top t htop), fun v p hpc => hnew (h.pending v p t hpc),
        fun v p huses hprev => hnew (h.ahead v p t huses hprev)⟩
    | run u => exact fun x p _ v prevTop hv => Or.inr (h.blank v p prevTop hv).2

omit [DecidableEq Thread] [DecidableEq Ticket] in
theorem Start.single (h : Start s) : Single owner s := by
  have hpc : ∀ v pc, pc ≠ .idle → s.pc v ≠ pc := fun v pc hne heq => hne (heq.symm.trans (h.idle v))
  refine ⟨h.owned, fun v p prevTop hv => absurd hv (hpc v _ nofun), fun v t hv => absurd hv (hpc v _ nofun),
    fun t htop => ?_, fun v p t hv => absurd hv (hpc v _ nofun), ?_⟩
  · rw [h.top] at htop
    cases htop
  · rintro v p t (hv | hv | hv)
    · exact absurd hv (hpc v _ nofun)
    · exact absurd hv (hpc v _ nofun)
    · exact absurd hv (hpc v _ nofun)

theorem reachable_single (hr : Reachable (logged owner) Zeroed y) : Single owner y.1 := by
  apply hr.invariant (P := fun y => Single owner y.1)
  · rintro ⟨s, l⟩ ⟨hs, -⟩
    exact hs.single
  · rintro ⟨s, l⟩ a ⟨s', l'⟩ h hzero ⟨hexec, -⟩
    exact h.step hzero (exec_moves hexec)

/-- Zeroed tickets that are used once are all that the rules ask for. -/
theorem careful_of_zeroed (hrun : Run (logged owner) Zeroed x e) : Run (logged owner) Careful x e where
  init := hrun.init
  stay := hrun.stay
  step k a he := by
    obtain ⟨hzero, hstep⟩ := hrun.step k a he
    exact ⟨(reachable_single (hrun.reachable k)).careful hzero (exec_moves hstep.1), hstep⟩

/-! ## A run -/

/-- A lock with zeroed tickets. -/
def zeroedLock : State Bool Bool := { newLock with finished := fun _ => false }

/-- The second thread waits for the first one, gets in after it and unlocks. -/
def bothServed : List (Event Bool Bool) := contended ++ handover ++ [.run true, .run true]

instance (x : State Bool Bool × Log Bool Bool) : ∀ e, Decidable (Zeroed x e)
  | .lock _ t => inferInstanceAs (Decidable (x.1.finished t = false ∧ x.1.prev t = none))
  | .run _ => .isTrue trivial

def served (k : ℕ) : State Bool Bool × Log Bool Bool :=
  ((bothServed.take k).foldlM (guarded Zeroed (execLogged id)) (zeroedLock, noLog)).getD (zeroedLock, noLog)

/-- Both have made their exchange after two steps. -/
theorem starvation_free_contended :
    Run (logged id) Careful served (fun k => bothServed[k]?) ∧ Fair served (fun k => bothServed[k]?) ∧
      (served 2).2.locked = [(false, false), (true, true)] ∧
      ∃ j ≥ 2, [(false, false), (true, true)] <+: (served j).2.entered := by
  have hlast : (bothServed.foldlM (guarded Zeroed (execLogged id)) (zeroedLock, noLog)).map
      (fun x => (x.1.pc false, x.1.pc true)) = some (.idle, .idle) := by decide +kernel
  obtain ⟨last, hserved, hlast⟩ := Option.map_eq_some_iff.mp hlast
  obtain ⟨hfirst, hsecond⟩ := Prod.mk.inj hlast
  have hcareful : Run (logged id) Careful served (fun k => bothServed[k]?) := by
    apply careful_of_zeroed
    exact .foldlM ⟨⟨rfl, fun _ => rfl⟩, rfl⟩ (fun _ _ _ h => (guarded_some h).imp_right execLogged_step) hserved
  have hfair : Fair served (fun k => bothServed[k]?) := by
    refine fun u j => ⟨j + 13, by omega, Or.inr ?_⟩
    rw [served, List.take_of_length_le (Nat.le_add_left 13 j), hserved]
    cases u
    · exact hfirst
    · exact hsecond
  have hlocked : (served 2).2.locked = [(false, false), (true, true)] := by decide +kernel
  obtain ⟨j, hj, hin⟩ := starvation_free hcareful hfair 2
  rw [hlocked] at hin
  exact ⟨hcareful, hfair, hlocked, j, hj, hin⟩

end GenericOs.Mcs
