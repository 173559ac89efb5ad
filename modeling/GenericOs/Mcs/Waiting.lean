import GenericOs.Library.Chain
import GenericOs.Mcs.Exclusion

/-!
# Circular waits

Tickets get ranks in the order of their exchanges. A ticket waits for one with a lower
rank, unless a ticket is exchanged again while somebody still looks at it.
-/

namespace GenericOs.Mcs

open Transition (Reachable guarded foldlM_of_guarded)

variable {Thread Ticket : Type} {owner : Ticket → Thread} {s s' : State Thread Ticket} {e : Event Thread Ticket}
  {u v : Thread} {t x y p : Ticket} {rank : Ticket → ℕ} {n : ℕ}

/-- `u` is in the loop of `MCSLock`. -/
def Spinning (s : State Thread Ticket) (u : Thread) (t : Ticket) : Prop :=
  s.pc u = .testPrev t ∨ s.pc u = .testFinished t

/-- From an unfinished ticket to its `Prev`. -/
def Follows (s : State Thread Ticket) (x y : Ticket) : Prop := s.finished x = false ∧ s.prev x = some y

/-- No chain from a spinning ticket comes to a ticket twice. -/
def NoCircle (s : State Thread Ticket) : Prop :=
  ∀ u t, Spinning s u t → ∀ y, Relation.ReflTransGen (Follows s) t y → ¬ Relation.TransGen (Follows s) y y

/-- `u` has written the fields of `x` and not finished it. -/
def Uses (s : State Thread Ticket) (u : Thread) (x : Ticket) : Prop :=
  s.pc u = .testPrev x ∨ s.pc u = .testFinished x ∨ s.pc u = .critical x

/-- If the fields of `p` are still to be written, then what they hold is no wait. -/
def Readable (s : State Thread Ticket) (p : Ticket) : Prop :=
  ∀ v prevTop, s.pc v = .write p prevTop → s.finished p = true ∨ s.prev p = none

/-- No ticket is exchanged while `top` or a ticket in use leads to it, and none begins to wait for a
ticket whose old fields look like a wait. -/
def NoReuse (s : State Thread Ticket) : Event Thread Ticket → Prop
  | .lock _ t => s.top ≠ some t ∧ (∀ v x, s.pc v ≠ .write x (some t)) ∧
      ∀ v x, Uses s v x → s.prev x ≠ some t
  | .run u => ∀ x p, s.pc u = .write x (some p) → Readable s p

section

variable [DecidableEq Thread] [DecidableEq Ticket] [Fintype Thread] [Fintype Ticket]

instance (s : State Thread Ticket) (u : Thread) (x : Ticket) : Decidable (Uses s u x) :=
  inferInstanceAs (Decidable (_ ∨ _ ∨ _))

instance (s : State Thread Ticket) (p : Ticket) : Decidable (Readable s p) :=
  inferInstanceAs (Decidable (∀ v prevTop, s.pc v = .write p prevTop → s.finished p = true ∨ s.prev p = none))

instance (s : State Thread Ticket) : ∀ e, Decidable (NoReuse s e)
  | .lock _ t => inferInstanceAs (Decidable (s.top ≠ some t ∧ (∀ v x, s.pc v ≠ .write x (some t)) ∧
      ∀ v x, Uses s v x → s.prev x ≠ some t))
  | .run u => inferInstanceAs (Decidable (∀ x p, s.pc u = .write x (some p) → Readable s p))

end

/-! ## Ranks -/

structure Ranked (s : State Thread Ticket) (rank : Ticket → ℕ) (n : ℕ) : Prop where
  le : ∀ x, rank x ≤ n
  top : ∀ p, s.top = some p → 0 < rank p
  used : ∀ u x, (s.pc u).ticket = some x → 0 < rank x
  pending : ∀ u x p, s.pc u = .write x (some p) → 0 < rank p ∧ rank p < rank x
  unfinished : ∀ u x, Uses s u x → s.finished x = false
  waits : ∀ u x y, Uses s u x → s.prev x = some y → 0 < rank y ∧ rank y < rank x ∧ Readable s y
  rest : ∀ x, 0 < rank x → s.finished x = true ∨ (∃ u p, s.pc u = .write x p) ∨ ∃ u, Uses s u x

theorem Uses.ticket (h : Uses s u x) : (s.pc u).ticket = some x := by
  rcases h with h | h | h <;> rw [h] <;> rfl

theorem Uses.not_write (h : Uses s u x) (prevTop : Option Ticket) : s.pc u ≠ .write y prevTop := by
  rcases h with h | h | h <;> simp [h]

theorem Uses.not_clear (h : Uses s u x) : s.pc u ≠ .clear y := by
  rcases h with h | h | h <;> simp [h]

theorem Uses.not_idle (h : Uses s u x) : s.pc u ≠ .idle := by
  rcases h with h | h | h <;> simp [h]

/-- Ranks rule out a circle: from a spinning ticket they only go down. -/
theorem Ranked.noCircle (h : Ranked s rank n) (ho : Owned owner s) : NoCircle s := by
  intro u t hspin y hy
  have huses : Uses s u t := hspin.imp_right Or.inl
  have ht : 0 < rank t ∧ Readable s t := by
    refine ⟨h.used u t huses.ticket, fun v prevTop hv => ?_⟩
    have hvu : u = v := (ho u t huses.ticket).symm.trans (ho v t (by rw [hv]; rfl))
    subst hvu
    exact absurd hv (huses.not_write prevTop)
  refine Pointer.no_return (fun z => 0 < rank z ∧ Readable s z) rank ?_ ht hy
  rintro a b ⟨hpos, hread⟩ ⟨hfin, hprev⟩
  rcases h.rest a hpos with hdone | ⟨v, prevTop, hv⟩ | ⟨v, hv⟩
  · rw [hfin] at hdone
    cases hdone
  · -- The old fields of a pending ticket are no wait.
    rcases hread v prevTop hv with hdone | hnone
    · rw [hfin] at hdone
      cases hdone
    · rw [hprev] at hnone
      cases hnone
  · obtain ⟨h1, h2, h3⟩ := h.waits v a b hv hprev
    exact ⟨⟨h1, h3⟩, h2⟩

theorem Start.ranked (h : Start s) : Ranked s (fun _ => 0) 0 where
  le _ := Nat.le_refl 0
  top p hp := by rw [h.top] at hp; cases hp
  used u x hx := by rw [h.idle] at hx; cases hx
  pending u x p hp := by rw [h.idle] at hp; cases hp
  unfinished u x hx := by
    have hx := hx.ticket
    rw [h.idle] at hx
    cases hx
  waits u x y hx := by
    have hx := hx.ticket
    rw [h.idle] at hx
    cases hx
  rest x hx := absurd hx (Nat.lt_irrefl 0)

/-! ## One step -/

theorem Local.readable (hl : Local owner u s s') (ho : Owned owner s) (h : Readable s y)
    (hu : ∀ prevTop, s'.pc u ≠ .write y prevTop) : Readable s' y := by
  intro v prevTop hv
  have hvu : v ≠ u := by
    rintro rfl
    exact hu prevTop hv
  rw [hl.pc v hvu] at hv
  have hy : owner y ≠ u := by
    rw [ho v y (by rw [hv]; rfl)]
    exact hvu
  rw [hl.finished y hy, hl.prev y hy]
  exact h v prevTop hv

theorem Local.uses (hl : Local owner u s s') (hv : v ≠ u) : Uses s' v x ↔ Uses s v x := by
  unfold Uses
  rw [hl.pc v hv]

variable [DecidableEq Thread] [DecidableEq Ticket]

/-- An exchange gives the ticket the highest rank. -/
theorem Ranked.lock (h : Ranked s rank n) (ho : Owned owner s) (hpc : s.pc u = .idle) (how : owner t = u)
    (hc : NoReuse s (.lock u t)) (hm : Moves owner s (.lock u t) s') :
    Ranked s' (Function.update rank t (n + 1)) (n + 1) := by
  have hl := hm.isLocal_lock
  obtain ⟨htop, hpending, huses⟩ := hc
  obtain ⟨htop', hprev, hfin, hself⟩ : s'.top = some t ∧ s'.prev = s.prev ∧ s'.finished = s.finished ∧
      s'.pc u = .write t s.top := by
    cases hm
    exact ⟨rfl, rfl, rfl, Function.update_self ..⟩
  have hrank : ∀ x, x ≠ t → Function.update rank t (n + 1) x = rank x := fun x hx =>
    Function.update_of_ne hx ..
  have hnew : Function.update rank t (n + 1) t = n + 1 := Function.update_self ..
  have hne : ∀ v x, v ≠ u → (s.pc v).ticket = some x → x ≠ t := by
    rintro v x hv hx rfl
    exact hv ((ho v x hx).symm.trans how)
  have hother : ∀ v x, Uses s' v x → Uses s v x ∧ x ≠ t := by
    intro v x hv
    by_cases hvu : v = u
    · subst hvu
      exact absurd hself (hv.not_write s.top)
    · have hv := (hl.uses hvu).mp hv
      exact ⟨hv, hne v x hvu hv.ticket⟩
  refine ⟨?_, ?_, ?_, ?_, ?_, ?_, ?_⟩
  · intro x
    by_cases hx : x = t
    · rw [hx]
      exact Nat.le_of_eq hnew
    · rw [hrank x hx]
      exact Nat.le_succ_of_le (h.le x)
  · intro p hp
    obtain rfl : t = p := Option.some.inj (htop'.symm.trans hp)
    rw [hnew]
    exact Nat.succ_pos n
  · intro v x hv
    by_cases hx : x = t
    · rw [hx, hnew]
      exact Nat.succ_pos n
    · rw [hrank x hx]
      by_cases hvu : v = u
      · rw [hvu, hself] at hv
        exact absurd (Option.some.inj hv).symm hx
      · rw [hl.pc v hvu] at hv
        exact h.used v x hv
  · intro v x p hv
    by_cases hvu : v = u
    · -- The new ticket waits for the one that was on top.
      rw [hvu, hself, Pc.write.injEq] at hv
      obtain ⟨rfl, hp⟩ := hv
      rw [hnew, hrank p (by rintro rfl; exact htop hp)]
      exact ⟨h.top p hp, Nat.lt_succ_of_le (h.le p)⟩
    · rw [hl.pc v hvu] at hv
      rw [hrank p (by rintro rfl; exact hpending v x hv),
        hrank x (hne v x hvu (by rw [hv]; rfl))]
      exact h.pending v x p hv
  · intro v x hv
    rw [hfin]
    exact h.unfinished v x (hother v x hv).1
  · intro v x y hv hy
    obtain ⟨hv, hx⟩ := hother v x hv
    rw [hprev] at hy
    have hyt : y ≠ t := by
      rintro rfl
      exact huses v x hv hy
    obtain ⟨h1, h2, h3⟩ := h.waits v x y hv hy
    rw [hrank y hyt, hrank x hx]
    refine ⟨h1, h2, hl.readable ho h3 fun prevTop hu => ?_⟩
    rw [hself, Pc.write.injEq] at hu
    exact hyt hu.1.symm
  · intro x hx
    by_cases hxt : x = t
    · exact Or.inr (Or.inl ⟨u, s.top, by rw [hxt]; exact hself⟩)
    · rw [hrank x hxt] at hx
      rw [hfin]
      have hidle : ∀ v, (s.pc v).ticket = some x → v ≠ u := by
        rintro v hv rfl
        rw [hpc] at hv
        cases hv
      rcases h.rest x hx with hdone | ⟨v, p, hv⟩ | ⟨v, hv⟩
      · exact Or.inl hdone
      · refine Or.inr (Or.inl ⟨v, p, ?_⟩)
        rw [hl.pc v (hidle v (by rw [hv]; rfl)), hv]
      · exact Or.inr (Or.inr ⟨v, (hl.uses (hidle v hv.ticket)).mpr hv⟩)

/-- A step other than an exchange keeps the ranks. What `u` itself does is left to show. -/
theorem Ranked.run (h : Ranked s rank n) (ho : Owned owner s) (hl : Local owner u s s')
    (htop : s'.top = s.top) (hwrite : ∀ x p, s'.pc u ≠ .write x p)
    (hticket : ∀ x, (s'.pc u).ticket = some x → (s.pc u).ticket = some x)
    (hkeep : ∀ x, (s.pc u).ticket ≠ some x → s'.finished x = s.finished x)
    (huses : ∀ x, Uses s' u x → s'.finished x = false ∧
      ∀ y, s'.prev x = some y → 0 < rank y ∧ rank y < rank x ∧ Readable s y)
    (hrest : ∀ x, (s.pc u).ticket = some x → s'.finished x = true ∨ Uses s' u x) : Ranked s' rank n := by
  have hother : ∀ v x, v ≠ u → (s.pc v).ticket = some x → owner x ≠ u := by
    intro v x hv hx
    rw [ho v x hx]
    exact hv
  refine ⟨h.le, ?_, ?_, ?_, ?_, ?_, ?_⟩
  · rw [htop]
    exact h.top
  · intro v x hv
    by_cases hvu : v = u
    · subst hvu
      exact h.used v x (hticket x hv)
    · rw [hl.pc v hvu] at hv
      exact h.used v x hv
  · intro v x p hv
    have hvu : v ≠ u := by
      rintro rfl
      exact hwrite x _ hv
    rw [hl.pc v hvu] at hv
    exact h.pending v x p hv
  · intro v x hv
    by_cases hvu : v = u
    · subst hvu
      exact (huses x hv).1
    · have hv := (hl.uses hvu).mp hv
      rw [hl.finished x (hother v x hvu hv.ticket)]
      exact h.unfinished v x hv
  · intro v x y hv hy
    by_cases hvu : v = u
    · subst hvu
      obtain ⟨h1, h2, h3⟩ := (huses x hv).2 y hy
      exact ⟨h1, h2, hl.readable ho h3 (hwrite y)⟩
    · have hv := (hl.uses hvu).mp hv
      rw [hl.prev x (hother v x hvu hv.ticket)] at hy
      obtain ⟨h1, h2, h3⟩ := h.waits v x y hv hy
      exact ⟨h1, h2, hl.readable ho h3 (hwrite y)⟩
  · intro x hx
    by_cases hu : (s.pc u).ticket = some x
    · exact (hrest x hu).imp_right fun hux => Or.inr ⟨u, hux⟩
    · have hne : ∀ v, (s.pc v).ticket = some x → v ≠ u := by
        rintro v hv rfl
        exact hu hv
      rw [hkeep x hu]
      rcases h.rest x hx with hdone | ⟨v, p, hv⟩ | ⟨v, hv⟩
      · exact Or.inl hdone
      · refine Or.inr (Or.inl ⟨v, p, ?_⟩)
        rw [hl.pc v (hne v (by rw [hv]; rfl)), hv]
      · exact Or.inr (Or.inr ⟨v, (hl.uses (hne v hv.ticket)).mpr hv⟩)

theorem Ranked.test (h : Ranked s rank n) (ho : Owned owner s) (hl : Local owner u s s')
    (htop : s'.top = s.top) (hprev : s'.prev = s.prev) (hfin : s'.finished = s.finished)
    (hu : Uses s u t) (hu' : Uses s' u t) : Ranked s' rank n := by
  have ht := hu.ticket
  have honly : ∀ x, Uses s' u x → x = t := fun x hx =>
    Option.some.inj (hx.ticket.symm.trans hu'.ticket)
  refine h.run ho hl htop ?_ ?_ (fun _ _ => by rw [hfin]) ?_ ?_
  · exact fun x p => hu'.not_write p
  · intro x hx
    rw [hu'.ticket] at hx
    rw [ht, hx]
  · intro x hx
    rw [honly x hx, hfin, hprev]
    exact ⟨h.unfinished u t hu, fun y hy => h.waits u t y hu hy⟩
  · intro x hx
    rw [ht] at hx
    obtain rfl := Option.some.inj hx
    exact Or.inr hu'

/-- The thread begins to wait for the ticket that was on top. -/
theorem Ranked.write {prevTop : Option Ticket} (h : Ranked s rank n) (ho : Owned owner s)
    (hl : Local owner u s s') (hpc : s.pc u = .write t prevTop) (hc : NoReuse s (.run u))
    (htop : s'.top = s.top) (hprev : s'.prev = Function.update s.prev t prevTop)
    (hfin : s'.finished = Function.update s.finished t false) (hself : s'.pc u = .testPrev t) :
    Ranked s' rank n := by
  have huses : Uses s' u t := Or.inl hself
  have ht : (s.pc u).ticket = some t := by rw [hpc]; rfl
  refine h.run ho hl htop ?_ ?_ ?_ ?_ ?_
  · intro x p hx
    rw [hself] at hx
    cases hx
  · intro x hx
    rw [huses.ticket] at hx
    rw [ht, hx]
  · intro x hx
    rw [hfin, Function.update_of_ne]
    rintro rfl
    exact hx ht
  · intro x hx
    obtain rfl : t = x := Option.some.inj (huses.ticket.symm.trans hx.ticket)
    rw [hfin, hprev, Function.update_self, Function.update_self]
    refine ⟨rfl, fun y hy => ?_⟩
    rw [hy] at hpc
    obtain ⟨h1, h2⟩ := h.pending u t y hpc
    exact ⟨h1, h2, hc t y hpc⟩
  · intro x hx
    obtain rfl := Option.some.inj (ht.symm.trans hx)
    exact Or.inr huses

/-- The thread is not in the queue any more, and its ticket is finished. -/
theorem Ranked.leave (h : Ranked s rank n) (ho : Owned owner s) (hl : Local owner u s s')
    (ht : (s.pc u).ticket = some t) (htop : s'.top = s.top) (hself : s'.pc u = .clear t ∨ s'.pc u = .idle)
    (hkeep : ∀ x, x ≠ t → s'.finished x = s.finished x) (hfin : s'.finished t = true) :
    Ranked s' rank n := by
  have hno : ∀ x, ¬ Uses s' u x := fun x hx => hself.elim hx.not_clear hx.not_idle
  refine h.run ho hl htop ?_ ?_ ?_ (fun x hx => absurd hx (hno x)) ?_
  · intro x p hx
    rw [hx] at hself
    rcases hself with ⟨⟨⟩⟩ | ⟨⟨⟩⟩
  · intro x hx
    rcases hself with hself | hself
    · rw [hself] at hx
      rw [ht]
      exact hx
    · rw [hself] at hx
      cases hx
  · intro x hx
    refine hkeep x ?_
    rintro rfl
    exact hx ht
  · intro x hx
    obtain rfl := Option.some.inj (ht.symm.trans hx)
    exact Or.inl hfin

omit [DecidableEq Thread] [DecidableEq Ticket] in
/-- Before the second write of `MCSUnlock` the ticket is finished. -/
theorem Ranked.cleared (h : Ranked s rank n) (ho : Owned owner s) (hpc : s.pc u = .clear t) :
    s.finished t = true := by
  have ht : (s.pc u).ticket = some t := by rw [hpc]; rfl
  have hu : ∀ v, (s.pc v).ticket = some t → v = u := fun v hv => (ho v t hv).symm.trans (ho u t ht)
  rcases h.rest t (h.used u t ht) with hdone | ⟨v, p, hv⟩ | ⟨v, hv⟩
  · exact hdone
  · obtain rfl := hu v (by rw [hv]; rfl)
    rw [hpc] at hv
    cases hv
  · obtain rfl := hu v hv.ticket
    exact absurd hpc hv.not_clear

theorem Ranked.step (h : Ranked s rank n) (ho : Owned owner s) (hc : NoReuse s e) (hm : Moves owner s e s') :
    ∃ rank n, Ranked s' rank n := by
  cases e with
  | lock u t =>
    have hm' := hm
    cases hm with
    | lock hpc how => exact ⟨_, _, h.lock ho hpc how hc hm'⟩
  | run u =>
    have hl := hm.isLocal ho
    refine ⟨rank, n, ?_⟩
    cases hm with
    | free hpc =>
      exact h.test ho hl rfl rfl rfl (Or.inl hpc) (Or.inr (Or.inr (Function.update_self ..)))
    | wait hpc =>
      exact h.test ho hl rfl rfl rfl (Or.inl hpc) (Or.inr (Or.inl (Function.update_self ..)))
    | enter hpc =>
      exact h.test ho hl rfl rfl rfl (Or.inr (Or.inl hpc)) (Or.inr (Or.inr (Function.update_self ..)))
    | again hpc =>
      exact h.test ho hl rfl rfl rfl (Or.inr (Or.inl hpc)) (Or.inl (Function.update_self ..))
    | write hpc => exact h.write ho hl hpc hc rfl rfl rfl (Function.update_self ..)
    | finish hpc =>
      exact h.leave ho hl (by rw [hpc]; rfl) rfl (Or.inl (Function.update_self ..))
        (fun x hx => Function.update_of_ne hx ..) (Function.update_self ..)
    | clear hpc =>
      refine h.leave ho hl (by rw [hpc]; rfl) rfl (Or.inr (Function.update_self ..)) (fun _ _ => rfl) ?_
      exact h.cleared ho hpc

/-! ## Every run -/

/-- In every run that never puts a ticket back too early, nobody waits in a circle. -/
theorem noReuse_noCircle (hr : Reachable (mcs owner) NoReuse s) : NoCircle s := by
  have hinv : Owned owner s ∧ ∃ rank n, Ranked s rank n := by
    apply hr.invariant (P := fun s => Owned owner s ∧ ∃ rank n, Ranked s rank n)
    · exact fun s hs => ⟨hs.owned, _, _, hs.ranked⟩
    · rintro s e s' ⟨ho, rank, n, h⟩ hc hstep
      have hm := exec_moves hstep
      exact ⟨ho.step hm, h.step ho hc hm⟩
  obtain ⟨ho, rank, n, h⟩ := hinv
  exact h.noCircle ho

/-- The first thread comes again with its old ticket. -/
def again : List (Event Bool Bool) := [.run true, .run true, .lock false false, .run false]

/-- The second thread waits for the first one. When both are done, the first one comes again. -/
theorem noReuse_noCircle_again :
    ∃ s s', contended.foldlM (exec id) newLock = some s ∧ (handover ++ again).foldlM (exec id) s = some s' ∧
      Spinning s true true ∧ Follows s true false ∧ NoCircle s ∧
      Spinning s' false false ∧ s'.prev false = some true ∧ NoCircle s' := by
  have hrun : ((contended.foldlM (guarded NoReuse (exec id)) newLock).bind fun s =>
      ((handover ++ again).foldlM (guarded NoReuse (exec id)) s).map fun s' =>
        ((s.pc true, s.finished true, s.prev true), s'.pc false, s'.prev false)) =
      some ((.testFinished true, false, some false), .testPrev false, some true) := by decide +kernel
  obtain ⟨s, h, hrun⟩ := Option.bind_eq_some_iff.mp hrun
  obtain ⟨s', h', hrun⟩ := Option.map_eq_some_iff.mp hrun
  simp only [Prod.mk.injEq] at hrun
  obtain ⟨⟨hwaits, hfin, hprev⟩, hagain, hprev'⟩ := hrun
  have hr : Reachable (mcs id) NoReuse s := .of_guarded (.init newLock_start) (fun _ _ _ h => h) h
  have hr' : Reachable (mcs id) NoReuse s' := hr.of_guarded (fun _ _ _ h => h) h'
  exact ⟨s, s', foldlM_of_guarded h, foldlM_of_guarded h', Or.inr hwaits, ⟨hfin, hprev⟩, noReuse_noCircle hr,
    Or.inl hagain, hprev', noReuse_noCircle hr'⟩

/-- One thread locks, unlocks and locks again: its ticket is still on top, and waits for itself. -/
theorem noCircle_fails :
    ∃ s, [.lock false false, .run false, .run false, .run false, .run false, .lock false false,
        .run false].foldlM (exec (id : Bool → Bool)) newLock = some s ∧
      Reachable (mcs id) (fun _ _ => True) s ∧ ¬ NoCircle s := by
  have hrun : ([.lock false false, .run false, .run false, .run false, .run false, .lock false false,
      .run false].foldlM (exec (id : Bool → Bool)) newLock).map
        (fun s => (s.pc false, s.finished false, s.prev false)) =
      some (.testPrev false, false, some false) := by decide
  obtain ⟨s, hs, hstate⟩ := Option.map_eq_some_iff.mp hrun
  simp only [Prod.mk.injEq] at hstate
  obtain ⟨hpc, hfin, hprev⟩ := hstate
  refine ⟨s, hs, .foldlM (.init newLock_start) (fun _ _ _ h => h) hs, fun hno => ?_⟩
  exact hno false false (Or.inl hpc) false .refl (.single ⟨hfin, hprev⟩)

end GenericOs.Mcs
